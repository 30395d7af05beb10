import LibCore.HttpRequest
import LibCore.WsFrame

/-!
# Connections of the HTTP Server

`HttpConnection_on_readable` of `http_server.c`, with the functions it calls:
`conn_shutdown`, `HttpConnection_process_ws_frames`, `ws_consume` and the two senders of
control frames. A connection reads header blocks, then bodies, dispatches requests, and
turns into a WebSocket connection when a handler answers 101.

The function is one loop, and every round of it calls `recv` once (the inner loop over the
body is part of the same loop here). `pass` is a round. The bytes of the client and the other
results of `recv` are the list `World.input`; an event loop that polls for readable sockets
calls `onReadable` as long as there is input and the connection is open (`serve`).

The handlers of the application, the socket and the event backend are the parameter
`Handlers`, over any type of states. What handlers, sends and control frames did is kept in a
log. Allocations succeed, and the server has a router.

## Main definitions

* `Conn`, `World`, `Handlers`: the connection and what is around it.
* `pass`, `onReadable`, `serve`: a round, a readable event, and all of them.
* `Reachable`: the states between two rounds.
-/

open CString

namespace HttpServer

/-! ### The connection -/

/-- `mode` of a connection. -/
inductive ConnMode where
  | http | ws
deriving DecidableEq

/-- `state` of a connection in HTTP mode. While a body is read there is a request. -/
inductive HttpState where
  | readHeader
  | readBody (req : Request)

/-- `HttpConnection`. The buffers hold the bytes up to `header_len` and `ws_in_len`;
`ws_in_buf` is `NULL` as long as its capacity is 0. -/
structure Conn where
  mode : ConnMode
  state : HttpState
  headerBuf : Bytes
  keepAlive : Bool
  wsInBuf : Bytes
  wsInCap : ℕ
  isClosing : Bool
  backendRemovePending : Bool
  shutdownDone : Bool
  wsCloseNotified : Bool

/-- `new_HttpConnection`. -/
def Conn.new : Conn := ⟨.http, .readHeader, [], true, [], 0, false, false, false, false⟩

/-- The test `is_closing || shutdown_done || backend_remove_pending`. -/
def Conn.leaving (c : Conn) : Bool := c.isClosing || c.shutdownDone || c.backendRemovePending

/-- Whether `conn_shutdown` has been here. -/
def Conn.isShut (c : Conn) : Bool := c.shutdownDone || c.backendRemovePending

/-- The results of `recv`: some bytes (none when the peer has closed), no bytes yet, an
interrupted call, or an error. -/
inductive Recv where
  | data (bytes : Bytes)
  | wouldBlock
  | eintr
  | error

/-- What a handler or a send can do to the connection: nothing, `is_closing = true`,
`conn_shutdown`, or a shutdown of the whole server. -/
inductive Effect where
  | none | close | shutdown | stop

/-- Everything outside the connection, over a state of its own. -/
structure Handlers (E : Type) where
  /-- `server->shutting_down`. -/
  shuttingDown : E → Bool
  /-- `router->dispatch`, with the status code of the response. -/
  dispatch : E → Request → E × ℕ × Effect
  /-- `server->on_ws_open`. -/
  onWsOpen : E → E × Effect
  /-- `server->on_ws_frame`, or `server->on_ws_message` with a copy of the payload. -/
  onWsFrame : E → Ws.Opcode → Bytes → E × Effect
  /-- `server->on_ws_close`. -/
  onWsClose : E → E
  /-- The queueing and the flush of a pong; `false` when it is refused. -/
  sendPong : E → Bytes → E × Bool × Effect
  /-- The queueing and the flush of a close frame. -/
  sendClose : E → E × Effect
  /-- `event_backend_remove`, and whether the socket is out of the backend. -/
  eventBackendRemove : E → E × Bool

/-- What the connection did. -/
inductive Event where
  | dispatched (req : Request)
  | replied (reply : Reply)
  | wsOpened
  | wsFrame (opcode : Ws.Opcode) (payload : Bytes)
  | wsPong (payload : Bytes)
  | wsConsumed (n : ℕ)
  | wsCloseSent
  | wsClosed

/-- Handlers without a state that answer every request with one status and leave the
connection alone. -/
def Handlers.plain (status : ℕ) : Handlers Unit where
  shuttingDown _ := false
  dispatch _ _ := ((), status, .none)
  onWsOpen _ := ((), .none)
  onWsFrame _ _ _ := ((), .none)
  onWsClose _ := ()
  sendPong _ _ := ((), true, .none)
  sendClose _ := ((), .none)
  eventBackendRemove _ := ((), true)

/-- A connection, the state of the handlers, the results of `recv` to come and the log. -/
structure World (E : Type) where
  env : E
  conn : Conn
  input : List Recv
  log : List Event

/-- How a round ends: with the next round, or with a return. -/
inductive Flow where
  | again | leave
deriving DecidableEq

variable {E : Type}

/-- A fresh connection. -/
def World.start (e : E) (input : List Recv) : World E := ⟨e, .new, input, []⟩

/-- Append an event to the log. -/
def World.record (w : World E) (ev : Event) : World E := { w with log := w.log ++ [ev] }

/-- Store the connection. -/
def World.setConn (w : World E) (conn : Conn) : World E := { w with conn := conn }

variable (h : Handlers E)

/-! ### Closing -/

/-- `notify_ws_close`. -/
def notifyWsClose (w : World E) : World E :=
  if w.conn.mode ≠ .ws ∨ w.conn.wsCloseNotified then w
  else
    let w := w.setConn { w.conn with wsCloseNotified := true }
    -- `server` is `NULL` once the connection has been taken out of it
    if w.conn.shutdownDone then w else { w with env := h.onWsClose w.env }.record .wsClosed

/-- `conn_shutdown`. -/
def connShutdown (w : World E) : World E :=
  if w.conn.isShut then w
  else
    let w := notifyWsClose h (w.setConn { w.conn with isClosing := true })
    match h.eventBackendRemove w.env with
    | (env, true) => { w with env := env }.setConn { w.conn with shutdownDone := true }
    | (env, false) => { w with env := env }.setConn { w.conn with backendRemovePending := true }

/-- What a call out of the connection did to it. -/
def applyEffect (eff : Effect) (w : World E) : World E :=
  match eff with
  | .none => w
  | .close => w.setConn { w.conn with isClosing := true }
  | .shutdown => connShutdown h w
  | .stop =>
      match w.conn.mode with
      | .http => connShutdown h (w.setConn { w.conn with isClosing := true, keepAlive := false })
      | .ws => w.setConn { w.conn with isClosing := true }

/-- Send an answer and close. -/
def reject (reply : Reply) (w : World E) : World E := connShutdown h (w.record (.replied reply))

/-! ### WebSocket mode -/

/-- `ws_consume`, on the buffer the decoder left. -/
def wsConsume (buf : Bytes) (consumed : ℕ) (w : World E) : World E :=
  (w.setConn { w.conn with wsInBuf := buf.drop consumed }).record (.wsConsumed consumed)

/-- `HttpConnection_ws_close_checked`; `false` for -1. -/
def wsCloseChecked (w : World E) : Bool × World E :=
  if w.conn.mode ≠ .ws ∨ w.conn.isClosing then (false, w)
  else
    let w := (w.setConn { w.conn with isClosing := true }).record .wsCloseSent
    let (env, eff) := h.sendClose w.env
    (true, applyEffect h eff { w with env := env })

/-- `HttpConnection_ws_send_pong`; `false` for -1. -/
def wsSendPong (payload : Bytes) (w : World E) : Bool × World E :=
  if w.conn.mode ≠ .ws ∨ w.conn.isClosing ∨ payload.length > 125 then (false, w)
  else
    let (env, sent, eff) := h.sendPong w.env payload
    if sent then (true, applyEffect h eff ({ w with env := env }.record (.wsPong payload)))
    else (false, { w with env := env })

/-- The callback of a text or a binary frame. -/
def wsDeliver (opcode : Ws.Opcode) (payload : Bytes) (w : World E) : World E :=
  if w.conn.shutdownDone then w
  else
    let (env, eff) := h.onWsFrame w.env opcode payload
    applyEffect h eff ({ w with env := env }.record (.wsFrame opcode payload))

/-- Answer a close frame or an illegal frame with a close frame. -/
def wsCloseOrShutdown (w : World E) : Bool × World E :=
  match wsCloseChecked h w with
  | (true, w) => (true, w)
  | (false, w) => (false, connShutdown h w)

/-- `HttpConnection_process_ws_frames`, for at most `fuel` frames; `false` for -1. -/
def processWsFrames : ℕ → World E → Bool × World E
  | 0, w => (true, w)
  | fuel + 1, w =>
      if w.conn.wsInBuf = [] then (true, w)
      else
        match Ws.wsDecodeFrame3 w.conn.wsInBuf with
        | .needMore _ => (true, w)
        | .error _ => wsCloseOrShutdown h w
        | .ok buf payload consumed opcode =>
            match opcode with
            | .close => wsCloseOrShutdown h (wsConsume buf consumed w)
            | .ping =>
                match wsSendPong h payload w with
                | (false, w) => (false, connShutdown h (wsConsume buf consumed w))
                | (true, w) =>
                    let w := wsConsume buf consumed w
                    if w.conn.leaving then (false, w) else processWsFrames fuel w
            | .text | .binary =>
                let w := wsConsume buf consumed (wsDeliver h opcode payload w)
                if w.conn.leaving then (false, w) else processWsFrames fuel w
            | .pong =>
                let w := wsConsume buf consumed w
                if w.conn.leaving then (false, w) else processWsFrames fuel w

/-- The whole buffer: every frame takes at least one byte. -/
def processWsBuffer (w : World E) : Bool × World E :=
  processWsFrames h w.conn.wsInBuf.length w

/-- The largest size of the input buffer. -/
def maxWsInCap : ℕ := Ws.maxPayloadSize + 4096

/-- The first part of a WebSocket round: allocate the input buffer, or double it when it is
full; `none` when it is full at its largest size. -/
def growWsBuf (c : Conn) : Option Conn :=
  let c := if c.wsInCap = 0 then { c with wsInCap := 8192 } else c
  if c.wsInBuf.length = c.wsInCap then
    if c.wsInCap * 2 > maxWsInCap then
      if c.wsInCap ≥ maxWsInCap then none else some { c with wsInCap := maxWsInCap }
    else some { c with wsInCap := c.wsInCap * 2 }
  else some c

/-! ### Reading -/

/-- `recv` with room for `max` bytes: what it returns, and what is left for later calls. A
call without room returns 0, like one at the end of the stream. -/
def recv (max : ℕ) : List Recv → Recv × List Recv
  | [] => (.wouldBlock, [])
  | .data d :: rest =>
      if d.length ≤ max then (.data d, rest) else (.data (d.take max), .data (d.drop max) :: rest)
  | r :: rest => (r, rest)

/-- A round in WebSocket mode. -/
def wsPass (w : World E) : Flow × World E :=
  match growWsBuf w.conn with
  | none => (.leave, connShutdown h w)
  | some c =>
      match recv (c.wsInCap - c.wsInBuf.length) w.input with
      | (.wouldBlock, input) => (.leave, { w with conn := c, input := input })
      | (.eintr, input) => (.again, { w with conn := c, input := input })
      | (.error, input) => (.leave, connShutdown h { w with conn := c, input := input })
      | (.data [], input) => (.leave, connShutdown h { w with conn := c, input := input })
      | (.data (b :: d), input) =>
          let conn := { c with wsInBuf := c.wsInBuf ++ b :: d }
          match processWsBuffer h { w with conn := conn, input := input } with
          | (false, w) => (.leave, w)
          | (true, w) => if w.conn.leaving then (.leave, w) else (.again, w)

/-- The connection in WebSocket mode: what is left in the header buffer becomes the start of
the WebSocket stream. -/
def Conn.toWs (c : Conn) : Conn :=
  let c := { c with mode := .ws, keepAlive := true }
  if 0 < c.headerBuf.length then
    let cap := if c.headerBuf.length > 8192 then c.headerBuf.length * 2 else 8192
    { c with wsInCap := cap, wsInBuf := c.headerBuf, headerBuf := [] }
  else c

/-- The callback of a new WebSocket connection, unless it is out of its server. -/
def wsOpen (w : World E) : World E :=
  if w.conn.shutdownDone then w
  else
    let (env, eff) := h.onWsOpen w.env
    applyEffect h eff ({ w with env := env }.record .wsOpened)

/-- The switch to WebSocket mode. -/
def upgrade (w : World E) : World E :=
  let w := wsOpen h (w.setConn w.conn.toWs)
  if w.conn.leaving then w
  else if 0 < w.conn.wsInBuf.length then (processWsBuffer h w).2
  else w

/-- `router->dispatch`, and the status code of the response. -/
def dispatchRequest (req : Request) (w : World E) : ℕ × World E :=
  let (env, status, eff) := h.dispatch w.env req
  (status, applyEffect h eff ({ w with env := env }.record (.dispatched req)))

/-- A complete request: refuse it, or dispatch it and see how the connection goes on. -/
def finishRequest (req : Request) (w : World E) : Flow × World E :=
  if !w.conn.shutdownDone && h.shuttingDown w.env then
    (.leave, reject h .serviceUnavailable w)
  else
    let (status, w) := dispatchRequest h req w
    if status = 101 then (.leave, upgrade h w)
    else if !w.conn.keepAlive then (.leave, connShutdown h w)
    else if w.conn.headerBuf = [] then (.leave, w)
    else (.again, w)

/-- The size of `header_buf`. -/
def headerBufSize : ℕ := 8192

/-- A request whose header block ends at `headerEnd + 4`, with the buffer the parser left:
copy what is there of the body, keep the rest of the buffer, and read on or finish. -/
def startBody (buf : Bytes) (headerEnd : ℕ) (p : ParsedRequest) (w : World E) :
    Flow × World E :=
  let blockSize := headerEnd + 4
  let c := { w.conn with keepAlive := p.keepAlive }
  if 0 < p.req.bodyLen then
    let toCopy := min (buf.length - blockSize) p.req.bodyLen
    let req := { p.req with body := (buf.drop blockSize).take toCopy }
    let c := { c with headerBuf := buf.drop (blockSize + toCopy) }
    if toCopy < p.req.bodyLen then (.again, w.setConn { c with state := .readBody req })
    else finishRequest h req (w.setConn c)
  else finishRequest h p.req (w.setConn { c with headerBuf := buf.drop blockSize })

/-- New bytes in the state `HTTP_STATE_READ_HEADER`. -/
def headerBytes (d : Bytes) (w : World E) : Flow × World E :=
  if w.conn.headerBuf.length + d.length ≥ headerBufSize then
    (.leave, reject h .headerFieldsTooLarge w)
  else
    let buf := w.conn.headerBuf ++ d
    let w := w.setConn { w.conn with headerBuf := buf }
    match strstr crlfcrlf buf with
    | none => (.again, w)
    | some headerEnd =>
        match parseRequest buf headerEnd with
        | .error reply => (.leave, reject h reply w)
        | .ok (buf, p) => startBody h buf headerEnd p w

/-- New bytes in the state `HTTP_STATE_READ_BODY`. -/
def bodyBytes (req : Request) (d : Bytes) (w : World E) : Flow × World E :=
  let req := { req with body := req.body ++ d }
  if req.body.length < req.bodyLen then
    (.again, w.setConn { w.conn with state := .readBody req })
  else finishRequest h req (w.setConn { w.conn with state := .readHeader })

/-- A round in HTTP mode: `max` bytes of room, and what is done with the bytes. -/
def httpPass (max : ℕ) (bytes : Bytes → World E → Flow × World E) (w : World E) :
    Flow × World E :=
  match recv max w.input with
  | (.wouldBlock, input) => (.leave, { w with input := input })
  | (.eintr, input) => (.again, { w with input := input })
  | (.error, input) => (.leave, connShutdown h { w with input := input })
  | (.data [], input) => (.leave, connShutdown h { w with input := input })
  | (.data (b :: d), input) => bytes (b :: d) { w with input := input }

/-- One round of the loop of `HttpConnection_on_readable`. -/
def pass (w : World E) : Flow × World E :=
  match w.conn.mode with
  | .ws => wsPass h w
  | .http =>
      match w.conn.state with
      | .readHeader => httpPass h 4095 (headerBytes h) w
      | .readBody req =>
          httpPass h (min (req.bodyLen - req.body.length) 4096) (bodyBytes h req) w

/-- The loop, for at most `fuel` rounds. -/
def readLoop : ℕ → World E → World E
  | 0, w => w
  | fuel + 1, w =>
      match pass h w with
      | (.again, w) => readLoop fuel w
      | (.leave, w) => w

/-- The number of calls of `recv` an input can last for, one byte at a time. -/
def inputSize : List Recv → ℕ
  | [] => 0
  | .data d :: rest => d.length + 1 + inputSize rest
  | _ :: rest => 1 + inputSize rest

/-- `HttpConnection_on_readable`. -/
def onReadable (w : World E) : World E :=
  if w.conn.leaving then w else readLoop h (inputSize w.input + 1) w

/-- `onReadable` for at most `fuel` readable events. -/
def serveLoop : ℕ → World E → World E
  | 0, w => w
  | fuel + 1, w =>
      if w.input.isEmpty || w.conn.leaving then w else serveLoop fuel (onReadable h w)

/-- All readable events of the connection: the backend reports a socket as readable as long as
there is something to read. -/
def serve (w : World E) : World E := serveLoop h (inputSize w.input) w

/-- The states between two rounds. After a round that returned, the next one starts with the
test at the head of `HttpConnection_on_readable`; after a round that goes on, without. -/
inductive Reachable (w₀ : World E) : Flow → World E → Prop
  | start : Reachable w₀ .leave w₀
  | enter {w : World E} : Reachable w₀ .leave w → w.conn.leaving = false →
      Reachable w₀ (pass h w).1 (pass h w).2
  | next {w : World E} : Reachable w₀ .again w → Reachable w₀ (pass h w).1 (pass h w).2

/-! ### The log -/

/-- The requests that were dispatched. -/
def dispatched (log : List Event) : List Request :=
  log.filterMap fun
    | .dispatched req => some req
    | _ => none

/-- The frames the callback received. -/
def frames (log : List Event) : List (Ws.Opcode × Bytes) :=
  log.filterMap fun
    | .wsFrame opcode payload => some (opcode, payload)
    | _ => none

/-- How many bytes of the WebSocket stream were consumed. -/
def wsConsumed (log : List Event) : ℕ :=
  (log.map fun
    | .wsConsumed n => n
    | _ => 0).sum

@[simp] theorem dispatched_append (log log' : List Event) :
    dispatched (log ++ log') = dispatched log ++ dispatched log' := by
  simp [dispatched]

@[simp] theorem wsConsumed_append (log log' : List Event) :
    wsConsumed (log ++ log') = wsConsumed log + wsConsumed log' := by
  simp [wsConsumed]

/-! ### What closing and calling out leave alone -/

/-- `w'` is `w` but for the state of the handlers, the flags of the connection and events that
neither dispatch nor consume, and it is shut if `w` is. -/
structure Keeps (w w' : World E) : Prop where
  input : w'.input = w.input
  mode : w'.conn.mode = w.conn.mode
  state : w'.conn.state = w.conn.state
  headerBuf : w'.conn.headerBuf = w.conn.headerBuf
  wsInBuf : w'.conn.wsInBuf = w.conn.wsInBuf
  dispatched : dispatched w'.log = dispatched w.log
  consumed : wsConsumed w'.log = wsConsumed w.log
  isShut : w.conn.isShut = true → w'.conn.isShut = true

theorem Keeps.refl (w : World E) : Keeps w w := by
  constructor <;> simp

theorem Keeps.trans {w₁ w₂ w₃ : World E} (h₁ : Keeps w₁ w₂) (h₂ : Keeps w₂ w₃) :
    Keeps w₁ w₃ where
  input := h₂.input.trans h₁.input
  mode := h₂.mode.trans h₁.mode
  state := h₂.state.trans h₁.state
  headerBuf := h₂.headerBuf.trans h₁.headerBuf
  wsInBuf := h₂.wsInBuf.trans h₁.wsInBuf
  dispatched := h₂.dispatched.trans h₁.dispatched
  consumed := h₂.consumed.trans h₁.consumed
  isShut := fun hw => h₂.isShut (h₁.isShut hw)

theorem keeps_notifyWsClose (w : World E) : Keeps w (notifyWsClose h w) := by
  unfold notifyWsClose
  split
  · exact .refl w
  · simp only []
    split <;> constructor <;> simp_all [World.setConn, World.record, HttpServer.dispatched,
      wsConsumed, Conn.isShut]

theorem keeps_connShutdown (w : World E) : Keeps w (connShutdown h w) := by
  unfold connShutdown
  split
  · exact .refl w
  · have hclosing : Keeps w (w.setConn { w.conn with isClosing := true }) := by
      constructor <;> simp [World.setConn, Conn.isShut]
    refine (hclosing.trans (keeps_notifyWsClose h _)).trans ?_
    simp only []
    split <;> constructor <;> simp [World.setConn, Conn.isShut]

/-- `conn_shutdown` leaves a connection that is shut. -/
theorem isShut_connShutdown (w : World E) : (connShutdown h w).conn.isShut = true := by
  unfold connShutdown
  split
  · assumption
  · simp only []
    split <;> simp [World.setConn, Conn.isShut]

theorem keeps_applyEffect (eff : Effect) (w : World E) : Keeps w (applyEffect h eff w) := by
  have hclosing : ∀ k, Keeps w (w.setConn { w.conn with isClosing := true, keepAlive := k }) := by
    intro k
    constructor <;> simp [World.setConn, Conn.isShut]
  cases eff with
  | none => exact .refl w
  | close => exact hclosing w.conn.keepAlive
  | shutdown => exact keeps_connShutdown h w
  | stop =>
      simp only [applyEffect]
      split
      · exact (hclosing false).trans (keeps_connShutdown h _)
      · exact hclosing w.conn.keepAlive

theorem frames_connShutdown (w : World E) : frames (connShutdown h w).log = frames w.log := by
  have hnotify : ∀ w : World E, frames (notifyWsClose h w).log = frames w.log := by
    intro w
    unfold notifyWsClose
    split
    · rfl
    · simp only []
      split <;> simp [World.setConn, World.record, frames]
  unfold connShutdown
  split
  · rfl
  · simp only []
    split <;> exact hnotify _

theorem frames_applyEffect (eff : Effect) (w : World E) :
    frames (applyEffect h eff w).log = frames w.log := by
  cases eff with
  | none => rfl
  | close => rfl
  | shutdown => exact frames_connShutdown h w
  | stop =>
      simp only [applyEffect]
      split
      · exact frames_connShutdown h _
      · rfl

/-- A shut connection is leaving. -/
theorem leaving_of_isShut {c : Conn} (hc : c.isShut = true) : c.leaving = true := by
  simp only [Conn.isShut, Conn.leaving, Bool.or_eq_true] at hc ⊢
  tauto

/-! ### Progress -/

theorem keeps_wsSendPong (payload : Bytes) (w : World E) :
    Keeps w (wsSendPong h payload w).2 := by
  unfold wsSendPong
  split
  · exact .refl w
  · simp only []
    split
    · refine .trans ?_ (keeps_applyEffect h _ _)
      constructor <;> simp [World.record, dispatched, wsConsumed]
    · constructor <;> simp

theorem keeps_wsDeliver (opcode : Ws.Opcode) (payload : Bytes) (w : World E) :
    Keeps w (wsDeliver h opcode payload w) := by
  unfold wsDeliver
  split
  · exact .refl w
  · refine .trans ?_ (keeps_applyEffect h _ _)
    constructor <;> simp [World.record, dispatched, wsConsumed]

theorem keeps_wsCloseOrShutdown (w : World E) : Keeps w (wsCloseOrShutdown h w).2 := by
  unfold wsCloseOrShutdown wsCloseChecked
  by_cases hmode : w.conn.mode ≠ .ws ∨ w.conn.isClosing = true
  · simp only [hmode, if_true]
    exact keeps_connShutdown h w
  · simp only [hmode, if_false]
    refine .trans ?_ (keeps_applyEffect h _ _)
    constructor <;> simp [World.setConn, World.record, dispatched, wsConsumed, Conn.isShut]

theorem keeps_wsOpen (w : World E) : Keeps w (wsOpen h w) := by
  unfold wsOpen
  split
  · exact .refl w
  · refine .trans ?_ (keeps_applyEffect h _ _)
    constructor <;> simp [World.record, dispatched, wsConsumed]

theorem keeps_dispatchRequest (req : Request) (w : World E) :
    Keeps (w.record (.dispatched req)) (dispatchRequest h req w).2 := by
  refine .trans ?_ (keeps_applyEffect h _ _)
  constructor <;> simp [World.record]

/-- The frame loop reads nothing. -/
theorem input_processWsFrames (fuel : ℕ) (w : World E) :
    (processWsFrames h fuel w).2.input = w.input := by
  induction fuel generalizing w with
  | zero => rfl
  | succ fuel ih =>
      have hnext : ∀ (buf : Bytes) (n : ℕ) (w' : World E), w'.input = w.input →
          (if (wsConsume buf n w').conn.leaving then (false, wsConsume buf n w') else
            processWsFrames h fuel (wsConsume buf n w')).2.input = w.input := by
        intro buf n w' hw'
        split
        · exact hw'
        · exact (ih _).trans hw'
      simp only [processWsFrames]
      split
      · rfl
      · cases Ws.wsDecodeFrame3 w.conn.wsInBuf with
        | needMore buf => rfl
        | error buf => exact (keeps_wsCloseOrShutdown h w).input
        | ok buf payload consumed opcode =>
            cases opcode with
            | close => exact (keeps_wsCloseOrShutdown h _).input
            | ping =>
                have hk := (keeps_wsSendPong h payload w).input
                simp only []
                revert hk
                rcases wsSendPong h payload w with ⟨sent, w'⟩
                intro hk
                cases sent with
                | false => exact (keeps_connShutdown h _).input.trans hk
                | true => exact hnext _ _ _ hk
            | text => exact hnext _ _ _ (keeps_wsDeliver h .text payload w).input
            | binary => exact hnext _ _ _ (keeps_wsDeliver h .binary payload w).input
            | pong => exact hnext _ _ _ rfl

theorem input_upgrade (w : World E) : (upgrade h w).input = w.input := by
  have hk := (keeps_wsOpen h (w.setConn w.conn.toWs)).input
  simp only [upgrade]
  split
  · exact hk
  · split
    · exact (input_processWsFrames h _ _).trans hk
    · exact hk

theorem input_finishRequest (req : Request) (w : World E) :
    (finishRequest h req w).2.input = w.input := by
  have hk := (keeps_dispatchRequest h req w).input
  simp only [finishRequest]
  split
  · exact (keeps_connShutdown h _).input
  · split
    · exact (input_upgrade h _).trans hk
    · split
      · exact (keeps_connShutdown h _).input.trans hk
      · split <;> exact hk

theorem input_bodyBytes (req : Request) (d : Bytes) (w : World E) :
    (bodyBytes h req d w).2.input = w.input := by
  simp only [bodyBytes]
  split
  · rfl
  · exact input_finishRequest h _ _

theorem input_headerBytes (d : Bytes) (w : World E) :
    (headerBytes h d w).2.input = w.input := by
  simp only [headerBytes]
  split
  · exact (keeps_connShutdown h _).input
  · split
    · rfl
    · split
      · exact (keeps_connShutdown h _).input
      · simp only [startBody]
        split
        · split
          · rfl
          · exact input_finishRequest h _ _
        · exact input_finishRequest h _ _

/-- What a round does with its input: it shuts the connection and returns, or it takes one
result of `recv`, and returns if that is `wouldBlock`. -/
inductive Took (w : World E) : Flow × World E → Prop
  | shut {w' : World E} : w'.conn.isShut = true → Took w (.leave, w')
  | block {max : ℕ} {rest : List Recv} {w' : World E} :
      recv max w.input = (.wouldBlock, rest) → w'.input = rest → Took w (.leave, w')
  | eintr {max : ℕ} {rest : List Recv} {res : Flow × World E} :
      recv max w.input = (.eintr, rest) → res.2.input = rest → Took w res
  | data {max : ℕ} {b : UInt8} {d : Bytes} {rest : List Recv} {res : Flow × World E} :
      recv max w.input = (.data (b :: d), rest) → res.2.input = rest → Took w res

theorem took_httpPass {max : ℕ} {bytes : Bytes → World E → Flow × World E}
    (hbytes : ∀ d w, (bytes d w).2.input = w.input) (w : World E) :
    Took w (httpPass h max bytes w) := by
  unfold httpPass
  rcases hr : recv max w.input with ⟨r, rest⟩
  cases r with
  | data d =>
      cases d with
      | nil => exact .shut (isShut_connShutdown h _)
      | cons b d => exact .data hr (hbytes _ _)
  | wouldBlock => exact .block hr rfl
  | eintr => exact .eintr hr rfl
  | error => exact .shut (isShut_connShutdown h _)

theorem took_wsPass (w : World E) : Took w (wsPass h w) := by
  unfold wsPass
  cases growWsBuf w.conn with
  | none => exact .shut (isShut_connShutdown h _)
  | some c =>
      simp only []
      rcases hr : recv (c.wsInCap - c.wsInBuf.length) w.input with ⟨r, rest⟩
      cases r with
      | data d =>
          cases d with
          | nil => exact .shut (isShut_connShutdown h _)
          | cons b d =>
              have hin := input_processWsFrames h (c.wsInBuf ++ b :: d).length
                { w with conn := { c with wsInBuf := c.wsInBuf ++ b :: d }, input := rest }
              refine .data hr ?_
              simp only [processWsBuffer]
              revert hin
              rcases processWsFrames h (c.wsInBuf ++ b :: d).length _ with ⟨ok, w'⟩
              intro hin
              cases ok with
              | false => exact hin
              | true =>
                  simp only []
                  split <;> exact hin
      | wouldBlock => exact .block hr rfl
      | eintr => exact .eintr hr rfl
      | error => exact .shut (isShut_connShutdown h _)

theorem took_pass (w : World E) : Took w (pass h w) := by
  unfold pass
  split
  · exact took_wsPass h w
  · split
    · exact took_httpPass h (input_headerBytes h) w
    · exact took_httpPass h (input_bodyBytes h _) w

/-- Taking a result of `recv` makes the input smaller, except at its end or without room. -/
theorem inputSize_recv {max : ℕ} {input rest : List Recv} {r : Recv}
    (hr : recv max input = (r, rest)) (hne : input ≠ []) (hdata : r ≠ .data []) :
    inputSize rest < inputSize input := by
  rcases input with - | ⟨r', input⟩
  · exact absurd rfl hne
  · cases r' with
    | data d =>
        simp only [recv] at hr
        split at hr
        · cases hr
          simp only [inputSize]
          omega
        · cases hr
          have hmax : max ≠ 0 := by
            rintro rfl
            exact hdata (by simp)
          simp only [inputSize, List.length_drop]
          omega
    | wouldBlock =>
        cases hr
        simp [inputSize]
    | eintr =>
        cases hr
        simp [inputSize]
    | error =>
        cases hr
        simp [inputSize]

/-- A round that goes on has made the input smaller. -/
theorem inputSize_of_again {w w' : World E} (hp : pass h w = (.again, w')) :
    inputSize w'.input < inputSize w.input := by
  have ht := took_pass h w
  rw [hp] at ht
  have hne : ∀ {max r rest}, recv max w.input = (r, rest) → r ≠ .wouldBlock → w.input ≠ [] := by
    intro max r rest hr hblock hnil
    rw [hnil] at hr
    cases hr
    exact hblock rfl
  cases ht with
  | eintr hr hin =>
      rw [show w'.input = _ from hin]
      exact inputSize_recv hr (hne hr (by simp)) (by simp)
  | data hr hin =>
      rw [show w'.input = _ from hin]
      exact inputSize_recv hr (hne hr (by simp)) (by simp)

/-- Nothing is left to do for the connection: no input, or it is being closed. -/
def World.Done (w : World E) : Prop := w.input = [] ∨ w.conn.leaving = true

/-- A round makes the input smaller, or there is nothing left to do. -/
theorem progress_pass (w : World E) :
    inputSize (pass h w).2.input < inputSize w.input ∨ (pass h w).2.Done := by
  have ht := took_pass h w
  by_cases hne : w.input = []
  · cases hp : pass h w with
    | mk flow w' =>
        rw [hp] at ht
        cases ht with
        | shut hw' => exact .inr (.inr (leaving_of_isShut hw'))
        | block hr hin =>
            rw [hne] at hr
            cases hr
            exact .inr (.inl hin)
        | eintr hr hin =>
            rw [hne] at hr
            cases hr
        | data hr hin =>
            rw [hne] at hr
            cases hr
  · cases hp : pass h w with
    | mk flow w' =>
        rw [hp] at ht
        cases ht with
        | shut hw' => exact .inr (.inr (leaving_of_isShut hw'))
        | block hr hin =>
            rw [show w'.input = _ from hin]
            exact .inl (inputSize_recv hr hne (by simp))
        | eintr hr hin =>
            rw [show w'.input = _ from hin]
            exact .inl (inputSize_recv hr hne (by simp))
        | data hr hin =>
            rw [show w'.input = _ from hin]
            exact .inl (inputSize_recv hr hne (by simp))

/-- The loop is left after a round that returns: the rounds the fuel allows are enough. -/
theorem readLoop_spec {w₀ w : World E} {fuel : ℕ} (hfuel : inputSize w.input < fuel)
    (hr : Reachable h w₀ (pass h w).1 (pass h w).2) :
    Reachable h w₀ .leave (readLoop h fuel w) ∧
      (inputSize (readLoop h fuel w).input < inputSize w.input ∨ (readLoop h fuel w).Done) := by
  induction fuel generalizing w with
  | zero => omega
  | succ fuel ih =>
      have hprogress := progress_pass h w
      rw [readLoop]
      rcases hp : pass h w with ⟨flow, w'⟩
      rw [hp] at hr hprogress
      cases flow with
      | leave => exact ⟨hr, hprogress⟩
      | again =>
          have hsize := inputSize_of_again h hp
          obtain ⟨hreach, hdone⟩ := ih (hsize.trans_le (Nat.lt_succ_iff.mp hfuel)) (.next hr)
          exact ⟨hreach, hdone.imp_left fun hlt => hlt.trans hsize⟩

/-- The states of `serve` are reachable, and it stops only when nothing is left to do. -/
theorem serveLoop_spec {w₀ w : World E} {fuel : ℕ} (hr : Reachable h w₀ .leave w)
    (hfuel : inputSize w.input ≤ fuel ∨ w.Done) :
    Reachable h w₀ .leave (serveLoop h fuel w) ∧ (serveLoop h fuel w).Done := by
  induction fuel generalizing w with
  | zero =>
      refine ⟨hr, hfuel.elim (fun hsize => .inl ?_) id⟩
      rcases hin : w.input with - | ⟨r, rest⟩
      · exact hin
      · rw [hin] at hsize
        cases r <;> simp [inputSize] at hsize
  | succ fuel ih =>
      rw [serveLoop]
      split
      · rename_i hstop
        refine ⟨hr, ?_⟩
        simpa [World.Done] using hstop
      · rename_i hgo
        simp only [Bool.or_eq_true, List.isEmpty_iff, not_or, Bool.not_eq_true] at hgo
        obtain ⟨hne, hopen⟩ := hgo
        have hle : inputSize w.input ≤ fuel + 1 := by
          refine hfuel.resolve_right ?_
          rintro (hin | hleave)
          · exact hne hin
          · rw [hopen] at hleave
            cases hleave
        obtain ⟨hreach, hprogress⟩ := readLoop_spec h (Nat.lt_add_one _) (.enter hr hopen)
        simp only [onReadable, hopen, Bool.false_eq_true, if_false]
        exact ih hreach (hprogress.imp_left fun hlt => by omega)

/-- `serve` ends in a reachable state with nothing left to do. -/
theorem serve_spec (w : World E) :
    Reachable h w .leave (serve h w) ∧ (serve h w).Done :=
  serveLoop_spec h .start (.inl le_rfl)

end HttpServer
