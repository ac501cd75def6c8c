import Snippets.RemoteClangFormat.Framing

/-!
# `RemoteClangFormat.Delivery` — every client gets its own code back, formatted

Whatever the kernel does with the streams and however the connections take turns, a client that returns, returns what
`clang-format` makes of its own file under its own style; and as long as it has not given up, it can be brought to
return. The one thing that must not happen is that the `send` of the length takes less than four bytes (`Step`).
-/

namespace Snippets
namespace RemoteClangFormat

open Lib

variable {t : Tools} {jobs : Nat → Args} {args : Args} {x x' : Connection} {s s' : System} {c n : Nat}
  {file file' : Bytes}

/-- What the documentation of `pickle` promises for a request; a pickled dictionary never has less than four bytes. -/
structure Tools.Lawful (t : Tools) (r : Request) : Prop where
  loads_dumps : t.loads (t.dumps r) = some r
  four : 4 ≤ (t.dumps r).length

/-! ## The parts of a file

Lines of the file by their number, and what the server makes of the range in between. -/

/-- The three parts, a line at a time. -/
theorem splitRange_append (first last : Int) (index : Int) (lines : List Bytes) :
    let r := splitRange first last index lines
    r.1 ++ r.2.1 ++ r.2.2 = lines.flatten ∧ (first ≤ index + 1 → r.1 = []) ∧
      (first ≤ index + 1 → last < index + 1 → r.2.1 = []) := by
  induction lines generalizing index with
  | nil => simp [splitRange]
  | cons line lines ih =>
      obtain ⟨hall, hhead, hcontent⟩ := ih (index + 1)
      simp only [splitRange]
      by_cases h₁ : index + 1 < first
      · refine ⟨?_, fun h => absurd h₁ (by omega), fun h => absurd h₁ (by omega)⟩
        simp only [h₁, if_true, List.flatten_cons, ← hall, List.append_assoc]
      · have hhead' := hhead (by omega)
        by_cases h₂ : last < index + 1
        · have hcontent' := hcontent (by omega) (by omega)
          simp only [h₁, h₂, if_true, if_false, hhead', hcontent', List.flatten_cons, ← hall]
          simp
        · simp only [h₁, h₂, if_false, hhead', List.flatten_cons, ← hall]
          simp

/-- The lines whose number satisfies `p`, where the first line is number `k`. -/
def linesWhere (p : Int → Bool) (k : Nat) (lines : List Bytes) : Bytes := ((lines.zipIdx k).filter fun l => p l.2).flatMap Prod.fst

/-- The first line and the others. -/
theorem linesWhere_cons (p : Int → Bool) (k : Nat) (line : Bytes) (lines : List Bytes) :
    linesWhere p k (line :: lines) = if p k then line ++ linesWhere p (k + 1) lines else linesWhere p (k + 1) lines := by
  unfold linesWhere
  rw [List.zipIdx_cons, List.filter_cons]
  split <;> rfl

/-- **The parts by their line numbers**, by induction on the lines that are left. -/
theorem splitRange_lines (first last : Int) (k : Nat) (lines : List Bytes) :
    splitRange first last k lines = (linesWhere (fun n => n < first) (k + 1) lines,
      linesWhere (fun n => first ≤ n ∧ n ≤ last) (k + 1) lines, linesWhere (fun n => first ≤ n ∧ last < n) (k + 1) lines) := by
  induction lines generalizing k with
  | nil => rfl
  | cons line lines ih =>
      have hrest := ih (k + 1)
      push_cast at hrest
      unfold splitRange
      rw [linesWhere_cons, linesWhere_cons, linesWhere_cons, hrest]
      push_cast
      by_cases hhead : (k : Int) + 1 < first
      · have hlow : ¬ first ≤ (k : Int) + 1 := not_le.mpr hhead
        simp [hhead, hlow]
      · have hfirst : first ≤ (k : Int) + 1 := not_lt.mp hhead
        by_cases htail : last < (k : Int) + 1
        · simp [hhead, hfirst, htail, not_le.mpr htail]
        · simp [hhead, hfirst, htail, not_lt.mp htail]

namespace Args

/-- The range is of line numbers from 1, both ends in it. -/
theorem parts_lines {first last : Int} (h : args.range = some (first, last)) :
    args.head = linesWhere (fun n => n < first) 1 args.lines ∧
      args.fileContent = linesWhere (fun n => first ≤ n ∧ n ≤ last) 1 args.lines ∧
      args.tail = linesWhere (fun n => first ≤ n ∧ last < n) 1 args.lines := by
  have hparts := splitRange_lines first last 0 args.lines
  unfold head fileContent tail parts
  rw [h]
  dsimp only
  push_cast at hparts
  rw [hparts]
  exact ⟨rfl, rfl, rfl⟩

/-- The three parts are the file, whatever the range. -/
theorem parts_append (args : Args) : args.head ++ args.fileContent ++ args.tail = args.lines.flatten := by
  unfold head fileContent tail parts
  split
  · exact (splitRange_append _ _ 0 args.lines).1
  · simp

/-- What the client sends, without its length. -/
def serialized (t : Tools) (args : Args) : Bytes := t.dumps args.request

/-- What it should get. -/
def formatted (t : Tools) (args : Args) : Bytes := t.clangFormat args.formatFileContent args.fileContent

end Args

/-! ## Where the bytes are

What is not sent, under way, at the server, on the way back and received: always one request and one reply. The
equations below read that off the client's places. -/

namespace ClientPc

/-- The client has given up. -/
def stopped : ClientPc → Bool
  | .raised | .exited => true
  | _ => false

/-- What the client has still to send. -/
def unsent (t : Tools) (args : Args) : ClientPc → Bytes
  | .connected => frame (args.serialized t)
  | .sending data => data
  | _ => []

/-- The client has not seen anything of a reply. -/
def Unanswered : ClientPc → Prop
  | .receiving _ _ | .returned _ => False
  | _ => True

/-- What the client has got of `reply`, while `toClient` is on its way. -/
def Awaits (reply toClient : Bytes) : ClientPc → Prop
  | .receiving replySize got => replySize ≠ 0 ∧ replySize = toClient.length ∧ got ++ toClient = reply
  | .returned got => got = reply
  | .raised | .exited => True
  | _ => toClient = frame reply

variable {pc : ClientPc} {data reply toClient : Bytes}

@[simp] theorem unsent_connected : unsent t args .connected = frame (args.serialized t) := rfl

@[simp] theorem unsent_sending : unsent t args (.sending data) = data := rfl

@[simp] theorem unsent_waiting : unsent t args .waiting = [] := rfl

@[simp] theorem unsent_receiving {size : Nat} {got : Bytes} : unsent t args (.receiving size got) = [] := rfl

/-- A client that sends has not stopped, -/
@[simp] theorem stopped_afterSend : (afterSend data).stopped = false := by
  unfold afterSend
  split <;> rfl

/-- has what is left before it, -/
@[simp] theorem unsent_afterSend : (afterSend data).unsent t args = data := by
  unfold afterSend
  split
  · simp [unsent, *]
  · rfl

/-- has no answer, -/
theorem unanswered_afterSend : (afterSend data).Unanswered := by
  unfold afterSend
  split <;> trivial

/-- and waits for the whole of it. -/
theorem awaits_afterSend (h : toClient = frame reply) : (afterSend data).Awaits reply toClient := by
  unfold afterSend
  split <;> exact h

/-- It goes on sending only when something is left. -/
theorem afterSend_sending {rest : Bytes} (h : afterSend data = .sending rest) : rest ≠ [] := by
  unfold afterSend at h
  split at h
  · cases h
  · cases h
    assumption

/-- A client that receives waits for the rest. -/
theorem awaits_afterRecv {got : Bytes} (h : got ++ toClient = reply) :
    (afterRecv toClient.length got).Awaits reply toClient := by
  unfold afterRecv
  split
  · next hzero =>
      rw [List.length_eq_zero_iff.mp hzero, List.append_nil] at h
      exact h
  · next hzero => exact ⟨hzero, rfl, h⟩

/-- It has not stopped, -/
@[simp] theorem stopped_afterRecv {size : Nat} {got : Bytes} : (afterRecv size got).stopped = false := by
  unfold afterRecv
  split <;> rfl

/-- and has sent all, -/
@[simp] theorem unsent_afterRecv {size : Nat} {got : Bytes} : (afterRecv size got).unsent t args = [] := by
  unfold afterRecv
  split <;> rfl

/-- so it sends no more. -/
theorem afterRecv_ne_sending {size : Nat} {got data : Bytes} : afterRecv size got ≠ .sending data := by
  unfold afterRecv
  split <;> exact nofun

end ClientPc

/-- A connection on which nothing has gone wrong. -/
structure Inv (t : Tools) (args : Args) (x : Connection) : Prop where
  sound : x.echo.Sound
  sent : ∃ rest, x.echo.seen ++ x.toServer ++ rest = frame (args.serialized t) ∧
    (x.pc.stopped = false → rest = x.pc.unsent t args)
  nonempty : ∀ data, x.pc = .sending data → data ≠ []
  size : (args.serialized t).length < 2 ^ 32 ∨ x.echo.seen ++ x.toServer = [] ∧ ∀ data, x.pc ≠ .sending data
  unanswered : x.transport = .connected →
    x.echo.seen ≠ frame (args.serialized t) ∧ x.toClient = [] ∧ x.pc.Unanswered
  answered : x.transport = .disconnecting → x.echo.seen = frame (args.serialized t) ∧
    (args.formatted t).length < 2 ^ 32 ∧ x.pc.Awaits (args.formatted t) x.toClient
  lost : x.transport = .lost → 2 ^ 32 ≤ (args.formatted t).length ∧ x.toClient = [] ∧ x.pc.Unanswered

/-- In the beginning all is still to be sent. -/
theorem inv_init : Inv t args ⟨.connected, [], .new, .connected, []⟩ := by
  refine ⟨Echo.sound_new, ⟨frame (args.serialized t), by simp [Echo.seen, Echo.new], fun _ => rfl⟩, nofun,
    Or.inr ⟨by simp [Echo.seen, Echo.new], nofun⟩, fun _ => ⟨?_, rfl, trivial⟩, nofun, nofun⟩
  intro h
  have hlength := congrArg List.length h
  rw [length_frame] at hlength
  simp [Echo.seen, Echo.new] at hlength
  omega

/-! ## One step

Bytes move from one place to the next, and none is lost or doubled. -/

/-- Before any answer the whole of it is awaited. -/
theorem ClientPc.Unanswered.awaits {pc : ClientPc} {reply : Bytes} (h : pc.Unanswered) : pc.Awaits reply (frame reply) := by
  cases pc <;> first | exact h.elim | trivial

/-- The client goes on without having received anything. -/
theorem Inv.moved (h : Inv t args x) {pc : ClientPc} {toServer : Bytes}
    (hsent : ∃ rest, x.echo.seen ++ toServer ++ rest = frame (args.serialized t) ∧
      (pc.stopped = false → rest = pc.unsent t args))
    (hnonempty : ∀ data, pc = .sending data → data ≠ [])
    (hsize : (args.serialized t).length < 2 ^ 32 ∨ x.echo.seen ++ toServer = [] ∧ ∀ data, pc ≠ .sending data)
    (hunanswered : x.pc.Unanswered → pc.Unanswered)
    (hawaits : ∀ reply toClient, x.pc.Awaits reply toClient → pc.Awaits reply toClient) :
    Inv t args { x with pc := pc, toServer := toServer } := by
  refine ⟨h.sound, hsent, hnonempty, hsize, fun ho => ?_, fun ha => ?_, fun hl => ?_⟩
  · obtain ⟨hseen, hnone, hpc⟩ := h.unanswered ho
    exact ⟨hseen, hnone, hunanswered hpc⟩
  · obtain ⟨hseen, hfits, hpc⟩ := h.answered ha
    exact ⟨hseen, hfits, hawaits _ _ hpc⟩
  · obtain ⟨hlong, hnone, hpc⟩ := h.lost hl
    exact ⟨hlong, hnone, hunanswered hpc⟩

/-- A `send` moves bytes from the client to the stream. -/
theorem Inv.send (h : Inv t args x) (hsend : x.send t args n = some x') (hwhole : x.pc = .connected → n = 4) :
    Inv t args x' := by
  obtain ⟨rest, hrest, hunsent⟩ := h.sent
  unfold Connection.send at hsend
  split at hsend
  · next hpc =>
      obtain rfl := hunsent (by simp [hpc, ClientPc.stopped])
      -- the server has nothing of the request yet
      have hnone : x.echo.seen ++ x.toServer = [] := by
        have hlength := congrArg List.length hrest
        simp only [hpc, ClientPc.unsent, List.length_append] at hlength
        rw [← List.length_eq_zero_iff, List.length_append]
        omega
      dsimp only at hsend
      split at hsend
      · obtain rfl := Option.some.inj hsend
        exact h.moved ⟨_, hrest, by simp [ClientPc.stopped]⟩ (by simp) (Or.inr ⟨hnone, by simp⟩) (fun _ => trivial)
          (fun _ _ _ => trivial)
      · next hsize =>
          split at hsend
          · obtain rfl := Option.some.inj hsend
            obtain rfl := hwhole hpc
            have htake : (toLe 4 (t.dumps args.request).length).take 4 = toLe 4 (args.serialized t).length :=
              List.take_of_length_le (by simp)
            refine h.moved ⟨args.serialized t, ?_, fun _ => by simp [Args.serialized]⟩
              (fun _ => ClientPc.afterSend_sending) (Or.inl (Nat.lt_of_not_le hsize))
              (fun _ => ClientPc.unanswered_afterSend) fun reply toClient hawaits => ?_
            · rw [htake, ← List.append_assoc, hnone, List.nil_append, frame]
            · rw [hpc] at hawaits
              exact ClientPc.awaits_afterSend hawaits
          · cases hsend
  · next data hpc =>
      obtain rfl := hunsent (by simp [hpc, ClientPc.stopped])
      split at hsend
      · obtain rfl := Option.some.inj hsend
        have hsize : (args.serialized t).length < 2 ^ 32 := h.size.resolve_right fun hnone => hnone.2 data hpc
        refine h.moved ⟨data.drop n, ?_, fun _ => by simp⟩ (fun _ => ClientPc.afterSend_sending) (Or.inl hsize)
          (fun _ => ClientPc.unanswered_afterSend) fun reply toClient hawaits => ?_
        · rw [← hrest, hpc]
          simp [ClientPc.unsent]
        · rw [hpc] at hawaits
          exact ClientPc.awaits_afterSend hawaits
      · cases hsend
  · cases hsend

/-- A client that gives up keeps what it has. -/
theorem Inv.timeout (h : Inv t args x) (htimeout : x.timeout = some x') : Inv t args x' := by
  obtain ⟨rest, hrest, -⟩ := h.sent
  have hexit : x' = { x with pc := .exited } := by
    unfold Connection.timeout at htimeout
    split at htimeout
    all_goals first | exact (Option.some.inj htimeout).symm | cases htimeout
  rw [hexit]
  exact h.moved ⟨rest, hrest, by simp [ClientPc.stopped]⟩ (by simp)
    (h.size.imp_right fun hempty => ⟨hempty.1, by simp⟩) (fun _ => trivial) (fun _ _ _ => trivial)

/-- The client goes on with what it has received. -/
theorem Inv.received (h : Inv t args x) {pc : ClientPc} {toClient : Bytes} (hnext : pc.unsent t args = [])
    (hsending : ∀ data, pc ≠ .sending data) (hbefore : x.pc.unsent t args = []) (hlive : x.pc.stopped = false)
    (hunanswered : x.transport ≠ .disconnecting → toClient = [] ∧ pc.Unanswered)
    (hawaits : x.pc.Awaits (args.formatted t) x.toClient → (args.formatted t).length < 2 ^ 32 →
      pc.Awaits (args.formatted t) toClient) :
    Inv t args { x with pc := pc, toClient := toClient } := by
  obtain ⟨rest, hrest, hunsent⟩ := h.sent
  refine ⟨h.sound, ⟨rest, hrest, fun _ => ?_⟩, fun data hdata => absurd hdata (hsending data),
    h.size.imp_right fun hempty => ⟨hempty.1, hsending⟩, fun ho => ?_, fun ha => ?_, fun hl => ?_⟩
  · rw [hunsent hlive, hbefore, hnext]
  · have hconn : x.transport = .connected := ho
    exact ⟨(h.unanswered ho).1, hunanswered (by simp [hconn])⟩
  · obtain ⟨hseen, hfits, hpc⟩ := h.answered ha
    exact ⟨hseen, hfits, hawaits hpc hfits⟩
  · have hlost : x.transport = .lost := hl
    exact ⟨(h.lost hl).1, hunanswered (by simp [hlost])⟩

/-- Before the answer there is nothing to receive. -/
theorem Inv.toClient_nil (h : Inv t args x) (hconn : x.transport ≠ .disconnecting) :
    x.toClient = [] ∧ x.pc.Unanswered := by
  cases htransport : x.transport with
  | connected => exact (h.unanswered htransport).2
  | disconnecting => exact absurd htransport hconn
  | lost => exact (h.lost htransport).2

/-- A `recv` takes the next part of the reply, or, on a closed connection, nothing. -/
theorem Inv.recv (h : Inv t args x) (hrecv : x.recv n = some x') : Inv t args x' := by
  unfold Connection.recv at hrecv
  split at hrecv
  · next hn =>
      obtain ⟨hle, -⟩ := hn
      split at hrecv
      · next hpc =>
          have hbefore : x.pc.unsent t args = [] := by simp [hpc, ClientPc.unsent]
          have hlive : x.pc.stopped = false := by simp [hpc, ClientPc.stopped]
          split at hrecv
          · next hfour =>
              obtain rfl := Option.some.inj hrecv
              subst hfour
              refine h.received (by simp) (fun _ => ClientPc.afterRecv_ne_sending) hbefore hlive (fun hconn => ?_)
                fun hawaits hfits => ?_
              · rw [(h.toClient_nil hconn).1] at hle
                simp at hle
              · -- the four bytes are the length of the reply, and the reply is left
                rw [hpc] at hawaits
                have hreply : x.toClient = toLe 4 (args.formatted t).length ++ args.formatted t := hawaits
                rw [hreply, List.take_left' (toLe_length 4 _), List.drop_left' (toLe_length 4 _), ofLe_toLe_four hfits]
                exact ClientPc.awaits_afterRecv rfl
          · split at hrecv
            · obtain rfl := Option.some.inj hrecv
              exact h.received rfl nofun hbefore hlive
                (fun hconn => ⟨by simp [(h.toClient_nil hconn).1], trivial⟩) (fun _ _ => trivial)
            · cases hrecv
      · next size got hpc =>
          split at hrecv
          · obtain rfl := Option.some.inj hrecv
            refine h.received (by simp) (fun _ => ClientPc.afterRecv_ne_sending) (by simp [hpc, ClientPc.unsent])
              (by simp [hpc, ClientPc.stopped]) (fun hconn => ?_) fun hawaits hfits => ?_
            · have hun := (h.toClient_nil hconn).2
              rw [hpc] at hun
              exact hun.elim
            · rw [hpc] at hawaits
              obtain ⟨-, rfl, hreply⟩ := hawaits
              rw [← List.length_drop]
              exact ClientPc.awaits_afterRecv (by simp [hreply])
          · cases hrecv
      · cases hrecv
  · cases hrecv

/-- `dataReceived` takes bytes off the stream; the last ones make the server answer. -/
theorem Inv.deliver (h : Inv t args x) (ht : t.Lawful args.request) (hdeliver : x.deliver t file n = some (x', file')) :
    Inv t args x' := by
  obtain ⟨rest, hrest, hunsent⟩ := h.sent
  unfold Connection.deliver at hdeliver
  split at hdeliver
  · next hn =>
      obtain ⟨hpos, hle, hconn⟩ := hn
      obtain ⟨-, hnone, hpc⟩ := h.unanswered hconn
      have hsize : (args.serialized t).length < 2 ^ 32 := by
        refine h.size.resolve_right fun hempty => ?_
        have hlength := congrArg List.length hempty.1
        rw [List.length_append, List.length_nil] at hlength
        omega
      have hsplit : x.echo.seen ++ x.toServer.take n ++ (x.toServer.drop n ++ rest) = frame (args.serialized t) := by
        rw [← hrest, ← List.append_assoc, List.append_assoc x.echo.seen, List.take_append_drop]
      obtain ⟨hseen, hsound⟩ := Echo.seen_dataReceived h.sound (x.toServer.take n)
      have hmessage := Echo.message_dataReceived h.sound hsize ht.four hsplit
      simp only [hmessage] at hdeliver
      have hsent : ∃ rest, (x.echo.dataReceived (x.toServer.take n)).1.seen ++ x.toServer.drop n ++ rest =
          frame (args.serialized t) ∧ (x.pc.stopped = false → rest = x.pc.unsent t args) := by
        refine ⟨rest, ?_, hunsent⟩
        rw [hseen, ← hrest]
        simp
      by_cases hlast : x.toServer.drop n ++ rest = []
      · rw [if_pos hlast] at hdeliver
        rw [hlast, List.append_nil, ← hseen] at hsplit
        simp only [Connection.onMessage, Args.serialized, ht.loads_dumps] at hdeliver
        split at hdeliver
        · next hlong =>
            obtain ⟨rfl, -⟩ := Prod.mk.inj (Option.some.inj hdeliver)
            exact ⟨hsound, hsent, h.nonempty, Or.inl hsize, nofun, nofun, fun _ => ⟨hlong, hnone, hpc⟩⟩
        · next hfits =>
            obtain ⟨rfl, -⟩ := Prod.mk.inj (Option.some.inj hdeliver)
            refine ⟨hsound, hsent, h.nonempty, Or.inl hsize, nofun, fun _ => ⟨hsplit, Nat.lt_of_not_le hfits, ?_⟩, nofun⟩
            show x.pc.Awaits (args.formatted t) (x.toClient ++ _ ++ _)
            rw [hnone, List.nil_append]
            exact hpc.awaits
      · rw [if_neg hlast] at hdeliver
        obtain ⟨rfl, -⟩ := Prod.mk.inj (Option.some.inj hdeliver)
        refine ⟨hsound, hsent, h.nonempty, Or.inl hsize, fun _ => ⟨fun hall => hlast ?_, hnone, hpc⟩, ?_, ?_⟩
        · have hall' : x.echo.seen ++ x.toServer.take n = frame (args.serialized t) := hseen.symm.trans hall
          rw [hall'] at hsplit
          exact List.append_right_eq_self.mp hsplit
        · exact fun ha => Transport.noConfusion (hconn.symm.trans ha)
        · exact fun hl => Transport.noConfusion (hconn.symm.trans hl)
  · cases hdeliver

/-! ## All connections

A step is one connection's; the file that they share is written anew before each run of the tool. -/

/-- The connection itself -/
@[simp] theorem System.setConnection_self (s : System) (c : Nat) (x : Connection) :
    (s.setConnection c x).connections c = x := by
  simp [setConnection]

/-- and another one. -/
theorem System.setConnection_other (s : System) {c d : Nat} (x : Connection) (h : d ≠ c) :
    (s.setConnection c x).connections d = s.connections d := by
  simp [setConnection, h]

/-- A step is a step of one connection: the others do not notice. -/
theorem step_cases {a : Action} (hstep : s.step t jobs a = some s') :
    (∀ d, d ≠ a.client → s'.connections d = s.connections d) ∧
      ((∃ n, a = .send a.client n ∧
          (s.connections a.client).send t (jobs a.client) n = some (s'.connections a.client)) ∨
        (∃ n file', a = .deliver a.client n ∧
          (s.connections a.client).deliver t s.tempFormatFile n = some (s'.connections a.client, file')) ∨
        (∃ n, a = .recv a.client n ∧ (s.connections a.client).recv n = some (s'.connections a.client)) ∨
        (a = .timeout a.client ∧ (s.connections a.client).timeout = some (s'.connections a.client))) := by
  cases a with
  | send c n =>
      obtain ⟨x, hx, rfl⟩ := Option.map_eq_some_iff.mp hstep
      refine ⟨fun d hd => s.setConnection_other x hd, Or.inl ⟨n, rfl, ?_⟩⟩
      simpa [Action.client] using hx
  | deliver c n =>
      obtain ⟨⟨x, file'⟩, hx, rfl⟩ := Option.map_eq_some_iff.mp hstep
      refine ⟨fun d hd => s.setConnection_other x hd, Or.inr (Or.inl ⟨n, file', rfl, ?_⟩)⟩
      simpa [Action.client, System.setConnection] using hx
  | recv c n =>
      obtain ⟨x, hx, rfl⟩ := Option.map_eq_some_iff.mp hstep
      refine ⟨fun d hd => s.setConnection_other x hd, Or.inr (Or.inr (Or.inl ⟨n, rfl, ?_⟩))⟩
      simpa [Action.client] using hx
  | timeout c =>
      obtain ⟨x, hx, rfl⟩ := Option.map_eq_some_iff.mp hstep
      refine ⟨fun d hd => s.setConnection_other x hd, Or.inr (Or.inr (Or.inr ⟨rfl, ?_⟩))⟩
      simpa [Action.client] using hx

/-- So a step keeps the invariant of all, -/
theorem inv_step (ht : ∀ c, t.Lawful (jobs c).request) {a : Action} (h : ∀ c, Inv t (jobs c) (s.connections c)) (hstep : Step t jobs s a s') :
    ∀ c, Inv t (jobs c) (s'.connections c) := by
  obtain ⟨hstep, hwhole⟩ := hstep
  obtain ⟨hother, hown⟩ := step_cases hstep
  intro c
  by_cases hc : c = a.client
  · subst hc
    obtain ⟨n, ha, hsend⟩ | ⟨n, file', -, hdeliver⟩ | ⟨n, -, hrecv⟩ | ⟨-, htimeout⟩ := hown
    · exact (h _).send hsend (hwhole _ n ha)
    · exact (h _).deliver (ht _) hdeliver
    · exact (h _).recv hrecv
    · exact (h _).timeout htimeout
  · rw [hother c hc]
    exact h c

/-- and so does a run. -/
theorem inv_run (ht : ∀ c, t.Lawful (jobs c).request) {as : List Action} (hrun : Run (Step t jobs) (init file) as s) :
    ∀ c, Inv t (jobs c) (s.connections c) :=
  Run.invariant (I := fun s => ∀ c, Inv t (jobs c) (s.connections c)) (fun _ _ _ h hstep => inv_step ht h hstep) hrun
    fun _ => inv_init

/-! ## Progress

From any state the client's own steps bring its reply, since each moves a byte or ends a stage. -/

/-- The bytes a client has still to receive. -/
def ClientPc.left (t : Tools) (args : Args) : ClientPc → Nat
  | .receiving replySize _ => replySize
  | .returned _ | .raised | .exited => 0
  | _ => 4 + (args.formatted t).length

@[simp] theorem ClientPc.left_connected : left t args .connected = 4 + (args.formatted t).length := rfl

@[simp] theorem ClientPc.left_sending {data : Bytes} : left t args (.sending data) = 4 + (args.formatted t).length := rfl

@[simp] theorem ClientPc.left_waiting : left t args .waiting = 4 + (args.formatted t).length := rfl

@[simp] theorem ClientPc.left_receiving {size : Nat} {got : Bytes} : left t args (.receiving size got) = size := rfl

/-- What is left after a send -/
@[simp] theorem ClientPc.left_afterSend {data : Bytes} : (afterSend data).left t args = 4 + (args.formatted t).length := by
  unfold afterSend
  split <;> rfl

/-- and after a receive. -/
@[simp] theorem ClientPc.left_afterRecv {size : Nat} {got : Bytes} : (afterRecv size got).left t args = size := by
  unfold afterRecv
  split
  · simp [left, *]
  · rfl

/-- Every byte of the request has two moves before it, every byte of the reply one. -/
def Connection.weight (t : Tools) (args : Args) (x : Connection) : Nat :=
  2 * (x.pc.unsent t args).length + x.toServer.length + x.pc.left t args

/-- The reactor never refuses bytes, and they are no concern of the client. -/
theorem deliver_eq (t : Tools) (file : Bytes) (hpos : 1 ≤ n) (hle : n ≤ x.toServer.length)
    (hconn : x.transport = .connected) :
    ∃ r, x.deliver t file n = some r ∧ r.1.pc = x.pc ∧ r.1.toServer = x.toServer.drop n := by
  unfold Connection.deliver
  rw [if_pos ⟨hpos, hle, hconn⟩]
  dsimp only
  split
  · exact ⟨_, rfl, rfl, rfl⟩
  · unfold Connection.onMessage
    split
    · exact ⟨_, rfl, rfl, rfl⟩
    · dsimp only
      split <;> exact ⟨_, rfl, rfl, rfl⟩

/-- A step of client `c`'s connection that brings the client nearer to its reply. -/
def Forward (t : Tools) (jobs : Nat → Args) (c : Nat) (s : System) : Prop :=
  ∃ a s', a.client = c ∧ Step t jobs s a s' ∧ (s'.connections c).pc.stopped = false ∧
    (s'.connections c).weight t (jobs c) < (s.connections c).weight t (jobs c)

/-- A send brings it forward, -/
theorem Forward.send (hsend : (s.connections c).send t (jobs c) n = some x')
    (hwhole : (s.connections c).pc = .connected → n = 4) (hlive : x'.pc.stopped = false)
    (hlt : x'.weight t (jobs c) < (s.connections c).weight t (jobs c)) : Forward t jobs c s := by
  refine ⟨.send c n, s.setConnection c x', rfl, ⟨by simp [System.step, hsend], ?_⟩, by simpa using hlive, by simpa using hlt⟩
  intro d m hd hpc
  obtain ⟨rfl, rfl⟩ := Action.send.inj hd
  exact hwhole hpc

/-- a receive -/
theorem Forward.recv (hrecv : (s.connections c).recv n = some x') (hlive : x'.pc.stopped = false)
    (hlt : x'.weight t (jobs c) < (s.connections c).weight t (jobs c)) : Forward t jobs c s :=
  ⟨.recv c n, s.setConnection c x', rfl, ⟨by simp [System.step, hrecv], nofun⟩, by simpa using hlive, by simpa using hlt⟩

/-- and a delivery. -/
theorem Forward.deliver {r : Connection × Bytes} (hdeliver : (s.connections c).deliver t s.tempFormatFile n = some r)
    (hlive : r.1.pc.stopped = false) (hlt : r.1.weight t (jobs c) < (s.connections c).weight t (jobs c)) :
    Forward t jobs c s :=
  ⟨.deliver c n, { s.setConnection c r.1 with tempFormatFile := r.2 }, rfl,
    ⟨by simp [System.step, hdeliver], nofun⟩, by simpa [System.setConnection] using hlive,
    by simpa [System.setConnection] using hlt⟩

/-- **One step forward**: a client that has neither returned nor given up can go on, or the server can. -/
theorem forward (h : Inv t (jobs c) (s.connections c)) (hreply : ((jobs c).formatted t).length < 2 ^ 32)
    (hrequest : ((jobs c).serialized t).length < 2 ^ 32) (hlive : (s.connections c).pc.stopped = false)
    (hreturned : ∀ reply, (s.connections c).pc ≠ .returned reply) : Forward t jobs c s := by
  obtain ⟨rest, hrest, hunsent⟩ := h.sent
  generalize hx : s.connections c = x at *
  have hrest' := hunsent hlive
  cases hpc : x.pc with
  | connected =>
      have hsmall : ¬ 2 ^ 32 ≤ (t.dumps (jobs c).request).length := Nat.not_le_of_lt hrequest
      have hsend : x.send t (jobs c) 4 = some { x with
          pc := .afterSend ((jobs c).serialized t)
          toServer := x.toServer ++ (toLe 4 ((jobs c).serialized t).length).take 4 } := by
        simp only [Connection.send, hpc, if_neg hsmall]
        rfl
      refine Forward.send (by rw [hx]; exact hsend) (fun _ => rfl) (by simp) ?_
      rw [hx]
      simp [Connection.weight, hpc]
      omega
  | sending data =>
      have hpos := List.length_pos_of_ne_nil (h.nonempty data hpc)
      have hsend : x.send t (jobs c) data.length = some { x with
          pc := .afterSend (data.drop data.length)
          toServer := x.toServer ++ data.take data.length } := by
        simp [Connection.send, hpc, Nat.succ_le_of_lt hpos]
      refine Forward.send (by rw [hx]; exact hsend) (by rw [hx, hpc]; exact nofun) (by simp) ?_
      rw [hx]
      simp [Connection.weight, hpc]
      omega
  | waiting =>
      cases htransport : x.transport with
      | connected =>
          -- the request is not complete at the server, and the client has sent all of it
          have hpos : 1 ≤ x.toServer.length := by
            by_contra hempty
            have hnil : x.toServer = [] := List.length_eq_zero_iff.mp (by omega)
            rw [hrest', hpc, hnil] at hrest
            exact (h.unanswered htransport).1 (by simpa using hrest)
          obtain ⟨r, hdeliver, hrpc, hrserver⟩ := deliver_eq t s.tempFormatFile hpos (Nat.le_refl _) htransport
          refine Forward.deliver (by rw [hx]; exact hdeliver) (by simp [hrpc, hpc, ClientPc.stopped]) ?_
          rw [hx]
          simp [Connection.weight, hrpc, hrserver, hpc]
          omega
      | disconnecting =>
          have hawaits := (h.answered htransport).2.2
          rw [hpc] at hawaits
          have hclient : x.toClient = frame ((jobs c).formatted t) := hawaits
          have hle : 4 ≤ x.toClient.length := by simp [hclient]
          have hrecv : x.recv 4 = some { x with
              pc := .afterRecv (ofLe (x.toClient.take 4)) []
              toClient := x.toClient.drop 4 } := by
            simp [Connection.recv, hpc, hle]
          have hsize : ofLe (x.toClient.take 4) = ((jobs c).formatted t).length := by
            rw [hclient, frame, List.take_left' (toLe_length 4 _), ofLe_toLe_four hreply]
          refine Forward.recv (by rw [hx]; exact hrecv) (by simp) ?_
          rw [hx]
          simp [Connection.weight, hpc, hsize]
      | lost => exact absurd (h.lost htransport).1 (by omega)
  | receiving size got =>
      have hdisconnecting : x.transport = .disconnecting := by
        by_contra hconn
        have hun := (h.toClient_nil hconn).2
        rw [hpc] at hun
        exact hun
      have hawaits := (h.answered hdisconnecting).2.2
      rw [hpc] at hawaits
      obtain ⟨hpos, hsize, -⟩ := hawaits
      have hrecv : x.recv size = some { x with
          pc := .afterRecv (size - size) (got ++ x.toClient.take size)
          toClient := x.toClient.drop size } := by
        rw [Connection.recv, if_pos ⟨Nat.le_of_eq hsize, fun hzero => absurd hzero hpos⟩]
        simp [hpc]
      refine Forward.recv (by rw [hx]; exact hrecv) (by simp) ?_
      rw [hx]
      simp [Connection.weight, hpc]
      omega
  | returned reply => exact absurd hpc (hreturned reply)
  | raised => simp [hpc, ClientPc.stopped] at hlive
  | exited => simp [hpc, ClientPc.stopped] at hlive

theorem reaches_return (ht : ∀ c, t.Lawful (jobs c).request) (h : ∀ c, Inv t (jobs c) (s.connections c))
    (hreply : ((jobs c).formatted t).length < 2 ^ 32) (hrequest : ((jobs c).serialized t).length < 2 ^ 32)
    (hlive : (s.connections c).pc.stopped = false) :
    ∃ bs s', Run (Step t jobs) s bs s' ∧ (∀ a ∈ bs, a.client = c) ∧
      ∃ reply, (s'.connections c).pc = .returned reply := by
  -- the induction is on the moves that are left
  generalize hw : (s.connections c).weight t (jobs c) = w
  induction w using Nat.strong_induction_on generalizing s with
  | _ w ih =>
      by_cases hreturned : ∃ reply, (s.connections c).pc = .returned reply
      · exact ⟨[], s, .refl, by simp, hreturned⟩
      · obtain ⟨a, s₁, ha, hstep, hlive₁, hlt⟩ :=
          forward (h c) hreply hrequest hlive fun reply hpc => hreturned ⟨reply, hpc⟩
        obtain ⟨bs, s', hrun, hbs, hdone⟩ := ih _ (hw ▸ hlt) (inv_step ht h hstep) hlive₁ rfl
        refine ⟨a :: bs, s', (Run.single hstep).trans hrun, ?_, hdone⟩
        simpa [ha] using hbs

/-! ## An example

A file of three lines, with the second to be formatted. -/

/-- The bytes of a text. -/
def ascii (text : String) : Bytes := text.toList.map fun ch => UInt8.ofNat ch.toNat

/-- The second of three lines is to be formatted. -/
def declaration : Args := ⟨[ascii "a;\n", ascii "int  x;\n", ascii "b;\n"], some (2, 2), ascii "\n"⟩

/-- Its request, pickled. -/
def pickled : Bytes := ascii "(dp0\nS'file'\np1\nS'int  x;\\n'\np2\nsS'format_file'\np3\nS'\\n'\np4\ns."

/-- `pickle` and `clang-format` on that request. -/
def declarationTools : Tools where
  dumps _ := pickled
  loads data := if data = pickled then some declaration.request else none
  clangFormat _ code := if code = ascii "int  x;\n" then ascii "int x;\n" else code

/-- The example's tools read back what they wrote. -/
theorem lawful_declaration : declarationTools.Lawful declaration.request :=
  ⟨by simp [declarationTools], by decide +kernel⟩

/-! ## What clients get

The two results, for every run. -/

/-- **Every client gets its own code back.** Any number of clients, any interleaving, and streams cut anywhere but in
    the length a client sends: what a client returns is its file with the lines of its range, and no others, replaced
    by what `clang-format` makes of them under the client's own style file. The lines are counted from 1, and both ends
    of the range are in it. -/
theorem formats_own_file (ht : ∀ c, t.Lawful (jobs c).request) {as : List Action}
    (hrun : Run (Step t jobs) (init file) as s) {reply : Bytes} (hreturned : (s.connections c).pc = .returned reply) :
    (jobs c).output reply =
        (jobs c).head ++ t.clangFormat (jobs c).formatFileContent (jobs c).fileContent ++ (jobs c).tail ∧
      (jobs c).head ++ (jobs c).fileContent ++ (jobs c).tail = (jobs c).lines.flatten ∧
      ∀ first last, (jobs c).range = some (first, last) →
        (jobs c).head = linesWhere (fun n => n < first) 1 (jobs c).lines ∧
          (jobs c).fileContent = linesWhere (fun n => first ≤ n ∧ n ≤ last) 1 (jobs c).lines ∧
          (jobs c).tail = linesWhere (fun n => first ≤ n ∧ last < n) 1 (jobs c).lines := by
  have h := inv_run ht hrun c
  have hdisconnecting : (s.connections c).transport = .disconnecting := by
    by_contra hconn
    have hun := (h.toClient_nil hconn).2
    rw [hreturned] at hun
    exact hun
  have hawaits := (h.answered hdisconnecting).2.2
  rw [hreturned] at hawaits
  have hreply : reply = t.clangFormat (jobs c).formatFileContent (jobs c).fileContent := hawaits
  exact ⟨by rw [Args.output, hreply], (jobs c).parts_append, fun _ _ hrange => (jobs c).parts_lines hrange⟩

/-- The example's client gets its lines back, -/
theorem formats_own_file_declaration : ∃ as s reply,
    Run (Step declarationTools fun _ => declaration) (init []) as s ∧ (s.connections 3).pc = .returned reply ∧
      declaration.output reply = ascii "a;\nint x;\nb;\n" := by
  have ht : ∀ c : Nat, declarationTools.Lawful ((fun _ => declaration) c).request := fun _ => lawful_declaration
  obtain ⟨as, s, hrun, -, reply, hreturned⟩ := reaches_return (c := 3) (s := init []) ht (fun _ => inv_init)
    (by decide +kernel) (by decide +kernel) rfl
  obtain ⟨houtput, -⟩ := formats_own_file ht hrun hreturned
  refine ⟨as, s, reply, hrun, hreturned, ?_⟩
  rw [houtput]
  decide +kernel

/-- **No client is left waiting.** From every state that can be reached, steps of its own connection alone take a client
    that has not given up to its reply, unless request or reply are too long for the four bytes of their length. -/
theorem can_return (ht : ∀ c, t.Lawful (jobs c).request) {as : List Action}
    (hrun : Run (Step t jobs) (init file) as s) (hreply : ((jobs c).formatted t).length < 2 ^ 32)
    (hrequest : ((jobs c).serialized t).length < 2 ^ 32) (hlive : (s.connections c).pc.stopped = false) :
    ∃ bs s', Run (Step t jobs) s bs s' ∧ (∀ a ∈ bs, a.client = c) ∧ ∃ reply, (s'.connections c).pc = .returned reply :=
  reaches_return ht (inv_run ht hrun) hreply hrequest hlive

/-- and from the beginning it can. -/
theorem can_return_declaration : ∃ bs s',
    Run (Step declarationTools fun _ => declaration) (init []) bs s' ∧ (∀ a ∈ bs, a.client = 3) ∧
      ∃ reply, (s'.connections 3).pc = .returned reply :=
  can_return (fun _ => lawful_declaration) .refl (by decide +kernel) (by decide +kernel) rfl

end RemoteClangFormat
end Snippets
