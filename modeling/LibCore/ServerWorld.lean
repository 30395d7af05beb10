import LibCore.Dll
import LibCore.ServerQueue

/-!
# The HTTP Server: Its Connections

The lifecycle part of `http_server.c`: the list of connections, their shutdown, the output queues
and the graceful shutdown of the server. `HttpConnection` models what one connection reads; here a
round of `HttpConnection_on_readable` is given by what it found (`ReadRound`), and any sequence of
rounds is possible.

The application is a set of callbacks. A callback is a `Script`: it makes a call, sees what came of
it, and goes on. A shutdown calls `on_ws_close`, whose script may shut further connections down;
every connection is announced once, so the nesting is bounded by the number of connections, and
`notifyWsClose` has that bound as an argument. What the kernel, the backend and the allocator answer
are lists in the world (an answer behind the end of a list is a success, and a `send` there would
block).

## Main definitions

* `World`: the server and its connections.
* `connShutdown`, `flush`, `wsSend`, `wsClose`, `sweepClosing`, `beginShutdown`, `onReadable` and
  the other functions of the source.
* `Event`, `Event.exec`, `run`: runs of the server.
-/

open CString

namespace Server

/-- Why a connection is shut down. -/
inductive Cause
  | lost
  | rejected
  | sendFailed
  | modifyFailed
  | drained
  | noKeepAlive
  | beginShutdown
  | deadline
deriving DecidableEq

/-- A call of `conn_shutdown` that goes through, with the output of the connection at that time. -/
structure Shutdown where
  conn : ConnId
  cause : Cause
  outBuf : Bytes
  wire : Bytes
  appended : Bytes

/-- What `event_loop_stop` found. -/
structure Stop where
  listener : Bool
  connsHead : Option ConnId
  drainCount : ℕ
deriving DecidableEq

/-- `HttpServer`, the connections that were ever accepted, the answers to come, and the history:
the objects handed to `deferRelease`, the calls of `on_ws_close`, the calls of `conn_shutdown` and
of `event_loop_stop`. `listener` says that `server_sock` is not `NULL`. -/
structure World where
  conns : ConnId → Conn
  nextConn : ℕ
  connsHead : Option ConnId
  listener : Bool
  shuttingDown : Bool
  shutdownStartedMs : UInt64
  drainCount : ℕ
  shutdownRetryTimer : Bool
  running : Bool
  sends : List SendResult
  removes : List Bool
  modifies : List Bool
  allocs : List Bool
  deferred : List ConnId
  wsCloses : List ConnId
  shutdowns : List Shutdown
  stops : List Stop

/-- What a callback can call. -/
inductive WsCall
  | send (c : ConnId) (msg : Bytes)
  | sendText (c : ConnId) (text : Bytes)
  | sendBinary (c : ConnId) (data : Bytes)
  | sendPong (c : ConnId) (data : Bytes)
  | close (c : ConnId)
  | closeChecked (c : ConnId)
  | setUserData (c : ConnId) (session : Option Session)

/-- A callback: it calls something and goes on with the answer and the state it finds. -/
inductive Script (C : Type)
  | done
  | call (x : C) (k : Bool → World → Script C)

/-- A callback that goes on with another. -/
def Script.andThen {C : Type} : Script C → Script C → Script C
  | .done, s => s
  | .call x k, s => .call x fun answer w => (k answer w).andThen s

/-- `on_ws_close` of the application. -/
abbrev OnWsClose := ConnId → World → Script WsCall

namespace World

/-! ### The state -/

/-- The world after one connection has changed. -/
def modify (w : World) (c : ConnId) (f : Conn → Conn) : World :=
  { w with conns := Function.update w.conns c (f (w.conns c)) }

/-- The next answer of `malloc` or `realloc`. -/
def alloc (w : World) : Bool × World := (w.allocs.headD true, { w with allocs := w.allocs.tail })

/-- `event_backend_remove`: whether the socket is out of the backend. -/
def eventBackendRemove (w : World) : Bool × World :=
  (w.removes.headD true, { w with removes := w.removes.tail })

/-- `event_backend_modify`. -/
def eventBackendModify (w : World) (c : ConnId) (interest : Interest) : Bool × World :=
  let w' := { w with modifies := w.modifies.tail }
  if w.modifies.headD true then (true, w'.modify c fun x => { x with interest := interest })
  else (false, w')

/-- `deferRelease`. -/
def deferRelease (w : World) (c : ConnId) : World := { w with deferred := w.deferred ++ [c] }

/-- `remove_conn_from_server`. -/
def removeConnFromServer (w : World) (c : ConnId) : World :=
  let conn := w.conns c
  if !conn.server then w
  else
    let w := match conn.prev with
      | some p => w.modify p fun x => { x with next := conn.next }
      | none => if w.connsHead = some c then { w with connsHead := conn.next } else w
    let w := match conn.next with
      | some n => w.modify n fun x => { x with prev := conn.prev }
      | none => w
    w.modify c fun x => { x with server := false, next := none, prev := none }

/-- `HttpServer_maybe_finish_shutdown`. -/
def maybeFinishShutdown (w : World) : World :=
  if !w.shuttingDown then w
  else if w.listener = false ∧ w.connsHead = none ∧ w.drainCount = 0 then
    let w := { w with shutdownRetryTimer := false }
    if w.running then
      { w with
        running := false
        stops := w.stops ++ [⟨w.listener, w.connsHead, w.drainCount⟩] }
    else w
  else w

/-- A connection whose socket is out of the backend leaves the list. -/
def leave (w : World) (c : ConnId) : World :=
  let w := w.modify c fun x => { x with shutdownDone := true, backendRemovePending := false }
  (w.removeConnFromServer c).deferRelease c

/-! ### Shutting a connection down -/

section Notify

variable (notify : ConnId → World → World)

/-- The first lines of `conn_shutdown`: the connection is marked, and the history has it. -/
def shutDown (cause : Cause) (c : ConnId) (w : World) : World :=
  { w.modify c fun x => { x with isClosing := true } with
    shutdowns := w.shutdowns ++
      [⟨c, cause, (w.conns c).outBuf, (w.conns c).wire, (w.conns c).appended⟩] }

/-- The application hears of it. -/
def announce (c : ConnId) (w : World) : World :=
  if !(w.conns c).wsCloseNotified && (w.conns c).mode = .ws then notify c w else w

/-- The end of `conn_shutdown`: the connection leaves the list, or waits for its removal from the
backend. -/
def leaveOrWait (c : ConnId) (w : World) : World :=
  let (removed, w) := w.eventBackendRemove
  if removed then
    let server := (w.conns c).server
    let w := w.leave c
    if server && w.shuttingDown then w.maybeFinishShutdown else w
  else w.modify c fun x => { x with backendRemovePending := true }

/-- `conn_shutdown`. -/
def connShutdown (cause : Cause) (c : ConnId) (w : World) : World :=
  if (w.conns c).shutdownDone || (w.conns c).backendRemovePending then w
  else leaveOrWait c (announce notify c (shutDown cause c w))

/-- One registration with the backend, and the flags that go with it; a failure shuts the connection
down, and the flush returns (`false`). -/
def register (c : ConnId) (interest : Interest) (flags : Conn → Conn) (w : World) : Bool × World :=
  let (ok, w) := w.eventBackendModify c interest
  if !ok then (false, connShutdown notify .modifyFailed c w) else (true, w.modify c flags)

/-- The registration part of `HttpConnection_flush`: whether the function goes on. -/
def updateInterest (c : ConnId) (w : World) : Bool × World :=
  let conn := w.conns c
  if !conn.server then (true, w)
  else if conn.outBuf ≠ [] then
    if conn.isClosing then
      if !conn.closeWriteOnlyRegistered then
        register notify c ⟨false, true⟩
          (fun x => { x with isWriteRegistered := true, closeWriteOnlyRegistered := true }) w
      else (true, w)
    else if !conn.isWriteRegistered then
      register notify c ⟨true, true⟩ (fun x => { x with isWriteRegistered := true }) w
    else (true, w)
  else if conn.isWriteRegistered && !conn.isClosing then
    register notify c ⟨true, false⟩
      (fun x => { x with isWriteRegistered := false, closeWriteOnlyRegistered := false }) w
  else (true, w)

/-- The end of `HttpConnection_flush`: a closing connection without output is shut down. -/
def closeDrained (c : ConnId) (w : World) : World :=
  if (w.conns c).isClosing && (w.conns c).outBuf = [] && !(w.conns c).backendRemovePending &&
      (w.conns c).server then
    connShutdown notify .drained c w
  else w

/-- The sending part of `HttpConnection_flush`. -/
def sendQueue (c : ConnId) (w : World) : Option Bool × World :=
  let r := sendLoop w.sends (w.conns c).outBuf
  (r.error, { w.modify c fun x => { x with
      outBuf := r.out
      wire := x.wire ++ r.wire
      sockOpen := x.sockOpen && r.error ≠ some true } with
    sends := r.rest })

/-- `HttpConnection_flush`. -/
def flush (c : ConnId) (w : World) : World :=
  if !(w.conns c).sockOpen then w
  else
    let (error, w) := sendQueue c w
    if error.isSome then
      if (w.conns c).server then connShutdown notify .sendFailed c w else w
    else
      let (goesOn, w) := updateInterest notify c w
      if goesOn then closeDrained notify c w else w

/-! ### The calls of the application -/

/-- `append_out_buf` with the answer of `realloc`, if it is called. -/
def appendWith (c : ConnId) (data : Bytes) (reallocOk : Bool) (w : World) : Bool × World :=
  match (w.conns c).appendOutBuf reallocOk data with
  | some conn => (true, w.modify c fun _ => conn)
  | none => (false, w)

/-- `append_out_buf`: whether it returns `0`. -/
def append (c : ConnId) (data : Bytes) (w : World) : Bool × World :=
  if (w.conns c).grows data then
    let (ok, w) := w.alloc
    appendWith c data ok w
  else appendWith c data true w

/-- `HttpConnection_ws_send`. -/
def wsSend (c : ConnId) (msg : Bytes) (w : World) : Bool × World :=
  let conn := w.conns c
  if conn.mode ≠ .ws ∨ conn.isClosing then (false, w)
  else if !conn.sockOpen then (false, w)
  else
    let (ok, w) := w.alloc
    if !ok then (false, w)
    else
      let (_, w) := append c (wsBuildTextFrame msg) w
      (true, flush notify c w)

/-- The sends that respect the limit of the queue: `HttpConnection_ws_send_text`, `_binary` and
`_pong` differ in the opcode and in how long the payload may be. -/
def wsSendLimited (opcode : Ws.Opcode) (maxLen : ℕ) (c : ConnId) (data : Bytes) (w : World) :
    Bool × World :=
  let conn := w.conns c
  if conn.mode ≠ .ws ∨ conn.isClosing then (false, w)
  else if data.length > maxLen then (false, w)
  else
    let (ok, w) := w.alloc
    if !ok then (false, w)
    else
      let frame := wsBuildFrame opcode data
      if conn.outBuf.length > maxWsOutQueue ∨
          frame.length > maxWsOutQueue - conn.outBuf.length then (false, w)
      else
        let (ok, w) := append c frame w
        if !ok then (false, w) else (true, flush notify c w)

/-- `HttpConnection_ws_send_text`. -/
def wsSendText : ConnId → Bytes → World → Bool × World :=
  wsSendLimited notify .text Ws.maxPayloadSize

/-- `HttpConnection_ws_send_binary`. -/
def wsSendBinary : ConnId → Bytes → World → Bool × World :=
  wsSendLimited notify .binary Ws.maxPayloadSize

/-- `HttpConnection_ws_send_pong`. -/
def wsSendPong : ConnId → Bytes → World → Bool × World := wsSendLimited notify .pong 125

/-- `HttpConnection_ws_close`. -/
def wsClose (c : ConnId) (w : World) : World :=
  if (w.conns c).mode ≠ .ws ∨ (w.conns c).isClosing then w
  else
    let w := w.modify c fun x => { x with isClosing := true }
    if (w.conns c).sockOpen then
      let (_, w) := append c closeFrame w
      flush notify c w
    else w

/-- `HttpConnection_ws_close_checked`. -/
def wsCloseChecked (c : ConnId) (w : World) : Bool × World :=
  if (w.conns c).mode ≠ .ws ∨ (w.conns c).isClosing then (false, w)
  else if !(w.conns c).sockOpen then (false, w)
  else
    let (ok, w) := append c closeFrame w
    if !ok then (false, w)
    else
      let w := w.modify c fun x => { x with isClosing := true }
      (true, flush notify c w)

/-- A call of a callback, with its answer. -/
def wsCall : WsCall → World → Bool × World
  | .send c msg, w => wsSend notify c msg w
  | .sendText c text, w => wsSendText notify c text w
  | .sendBinary c data, w => wsSendBinary notify c data w
  | .sendPong c data, w => wsSendPong notify c data w
  | .close c, w => (true, wsClose notify c w)
  | .closeChecked c, w => wsCloseChecked notify c w
  | .setUserData c session, w => (true, w.modify c fun x => { x with wsUserData := session })

/-- A callback runs. -/
def runScript {C : Type} (exec : C → World → Bool × World) : Script C → World → World
  | .done, w => w
  | .call x k, w =>
      let (answer, w) := exec x w
      runScript exec (k answer w) w

end Notify

/-- `notify_ws_close`, with at most `depth` calls of `on_ws_close` inside each other. -/
def notifyWsClose (onWsClose : OnWsClose) : ℕ → ConnId → World → World
  | 0, _, w => w
  | depth + 1, c, w =>
      if (w.conns c).mode ≠ .ws ∨ (w.conns c).wsCloseNotified then w
      else
        let w := w.modify c fun x => { x with wsCloseNotified := true }
        if (w.conns c).server then
          let w := { w with wsCloses := w.wsCloses ++ [c] }
          runScript (wsCall (notifyWsClose onWsClose depth)) (onWsClose c w) w
        else w

/-! ### Walks over the connections -/

/-- `curr->next`. -/
def nextOf (w : World) (c : ConnId) : Option ConnId := (w.conns c).next

/-- A loop over all connections that saves `next` first: the connections it visits, and the world
after it. No loop has more rounds than there are connections. -/
def walk (handle : ConnId → World → World) (w : World) : List ConnId × World :=
  Dll.walk nextOf handle w.nextConn w.connsHead w

/-- One round of `HttpServer_sweep_closing`. -/
def sweepOne (c : ConnId) (w : World) : World :=
  if (w.conns c).backendRemovePending && !(w.conns c).shutdownDone then
    let (removed, w) := w.eventBackendRemove
    if removed then w.leave c else w
  else w

/-- The listener is taken out of the backend and closed. -/
def closeListener (w : World) : Bool × World :=
  let (removed, w) := w.eventBackendRemove
  if removed then (true, { w with listener := false }) else (false, w)

/-- `HttpServer_sweep_closing`. -/
def sweepClosing (w : World) : World :=
  let w := if w.listener && w.shuttingDown then w.closeListener.2 else w
  (w.walk sweepOne).2

/-- `HttpServer_drain_retain`. -/
def drainRetain (w : World) : World := { w with drainCount := w.drainCount + 1 }

/-- `HttpServer_drain_release`. -/
def drainRelease (w : World) : World :=
  let w := { w with drainCount := w.drainCount - 1 }
  if w.shuttingDown then w.sweepClosing.maybeFinishShutdown else w

section Notify

variable (notify : ConnId → World → World)

/-- One round of the loop of `on_shutdown_retry_tick`. -/
def closeAtDeadline (c : ConnId) (w : World) : World :=
  let w := if (w.conns c).outBuf ≠ [] then
      w.modify c fun x => { x with outBuf := [], discarded := true }
    else w
  if !(w.conns c).shutdownDone then connShutdown notify .deadline c w else w

/-- `on_shutdown_retry_tick`. -/
def onShutdownRetryTick (now : UInt64) (w : World) : World :=
  if !w.shuttingDown then w
  else
    let w := if now - w.shutdownStartedMs > 5000 then (w.walk (closeAtDeadline notify)).2 else w
    w.sweepClosing.maybeFinishShutdown

/-- One round of the loop of `HttpServer_begin_shutdown`. -/
def closeForShutdown (c : ConnId) (w : World) : World :=
  if (w.conns c).mode = .ws then wsClose notify c w
  else
    let w := w.modify c fun x => { x with isClosing := true, keepAlive := false }
    connShutdown notify .beginShutdown c w

/-- `HttpServer_begin_shutdown` up to its loop. -/
def enterShutdown (now : UInt64) (w : World) : World :=
  sweepClosing { w with shuttingDown := true, shutdownStartedMs := now, shutdownRetryTimer := true }

/-- `HttpServer_begin_shutdown`; `timerOk` says that the retry timer was created, added and
started. -/
def beginShutdown (timerOk : Bool) (now : UInt64) (w : World) : World :=
  if w.shuttingDown then w
  else if !timerOk then { w with shutdownStartedMs := now }
  else (((enterShutdown now w).walk (closeForShutdown notify)).2).maybeFinishShutdown

/-- Whether a connection gets the messages of a room. -/
def isMember (w : World) (room : ℕ) (c : ConnId) : Bool :=
  (w.conns c).mode = .ws && !(w.conns c).isClosing &&
    (w.conns c).wsUserData.any fun s => s.isJoined && s.room = room

/-- One round of `Broadcast_To_Room`. -/
def sendToMember (room : ℕ) (buf : Bytes) (c : ConnId) (w : World) : World :=
  if w.isMember room c then (wsSend notify c buf w).2 else w

/-- `Broadcast_To_Room`. -/
def broadcastToRoom (room : ℕ) (buf : Bytes) (w : World) : World :=
  (w.walk (sendToMember notify room buf)).2

/-! ### Events -/

/-- What `ws_decode_frame3` found: an invalid frame, a frame of some opcode with what the
application does, or no memory for a copy of the payload. -/
inductive FrameEvent
  | invalid
  | close
  | ping (payload : Bytes)
  | message (script : World → Script WsCall)
  | noMemory

/-- The test `is_closing || shutdown_done || backend_remove_pending`. -/
def leaving (w : World) (c : ConnId) : Bool :=
  (w.conns c).isClosing || (w.conns c).shutdownDone || (w.conns c).backendRemovePending

/-- `HttpConnection_process_ws_frames`: `false` for `-1`. -/
def processWsFrames (c : ConnId) : List FrameEvent → World → Bool × World
  | [], w => (true, w)
  | .invalid :: _, w | .close :: _, w =>
      let (ok, w) := wsCloseChecked notify c w
      if !ok then (false, connShutdown notify .lost c w) else (true, w)
  | .ping payload :: fs, w =>
      let (ok, w) := wsSendPong notify c payload w
      if !ok then
        (false, if !(w.conns c).shutdownDone && !(w.conns c).backendRemovePending then
          connShutdown notify .lost c w else w)
      else if w.leaving c then (false, w)
      else processWsFrames c fs w
  | .message script :: fs, w =>
      let w := if (w.conns c).server then runScript (wsCall notify) (script w) w else w
      if w.leaving c then (false, w) else processWsFrames c fs w
  | .noMemory :: _, w => (false, connShutdown notify .lost c w)

/-- What a request handler can call: the calls of callbacks, and the output of its response. -/
inductive DispatchCall
  | ws (x : WsCall)
  | appendSend (data : Bytes)
  | flush

/-- A call of the handler of a request on connection `c`. -/
def dispatchCall (c : ConnId) : DispatchCall → World → Bool × World
  | .ws x, w => wsCall notify x w
  | .appendSend data, w => append c data w
  | .flush, w => (true, flush notify c w)

/-- A round of `HttpConnection_on_readable`, by what it found: nothing to read; more to read; the
end of the stream or an error; a request it answers with an error of its own; a request with what
its handler and, after an upgrade, `on_ws_open` do, whether there is memory for the bytes behind the
upgrade, the frames there, and whether there are bytes of a further request; or frames. -/
inductive ReadRound
  | wouldBlock
  | again
  | lost (closed : Bool)
  | rejected
  | request (keepAlive upgrade : Bool) (handler : World → Script DispatchCall)
      (onWsOpen : World → Script WsCall) (memory : Bool) (frames : List FrameEvent) (more : Bool)
  | frames (fs : List FrameEvent)

/-- The rest of a round after an upgrade. -/
def upgrade (c : ConnId) (onWsOpen : World → Script WsCall) (memory : Bool)
    (frames : List FrameEvent) (w : World) : World :=
  let w := w.modify c fun x => { x with mode := .ws, keepAlive := true }
  if !memory then connShutdown notify .lost c w
  else
    let server := (w.conns c).server
    let w := if server then runScript (wsCall notify) (onWsOpen w) w else w
    if server && w.leaving c then w else (processWsFrames notify c frames w).2

/-- The rounds of `HttpConnection_on_readable`. -/
def readRounds (c : ConnId) : List ReadRound → World → World
  | [], w => w
  | .wouldBlock :: _, w => w
  | .again :: rs, w => readRounds c rs w
  | .lost closed :: _, w =>
      connShutdown notify .lost c (w.modify c fun x => { x with sockOpen := x.sockOpen && !closed })
  | .rejected :: _, w => connShutdown notify .rejected c w
  | .request keepAlive upgraded handler onWsOpen memory frames more :: rs, w =>
      if (w.conns c).mode = .ws then readRounds c rs w
      else
        let w := w.modify c fun x => { x with keepAlive := keepAlive }
        if (w.conns c).server && w.shuttingDown then connShutdown notify .rejected c w
        else
          let w := runScript (dispatchCall notify c) (handler w) w
          if upgraded then upgrade notify c onWsOpen memory frames w
          else if !(w.conns c).keepAlive then connShutdown notify .noKeepAlive c w
          else if more then readRounds c rs w
          else w
  | .frames fs :: rs, w =>
      if (w.conns c).mode = .ws then
        let (ok, w) := processWsFrames notify c fs w
        if !ok || w.leaving c then w else readRounds c rs w
      else readRounds c rs w

/-- `HttpConnection_on_readable`. -/
def onReadable (c : ConnId) (rounds : List ReadRound) (w : World) : World :=
  if w.leaving c then w else readRounds notify c rounds w

end Notify

/-- One round of the loop of `on_accept_cb`; `added` says that the connection was created and its
socket added to the backend. -/
def acceptOne (w : World) (added : Bool) : World :=
  if !added then w
  else
    let c := w.nextConn
    let w := { w with
      conns := Function.update w.conns c { Conn.new with next := w.connsHead }
      nextConn := c + 1 }
    let w := match w.connsHead with
      | some h => w.modify h fun x => { x with prev := some c }
      | none => w
    { w with connsHead := some c }

/-- `on_accept_cb`. There are no events without a listener. -/
def onAcceptCb (added : List Bool) (w : World) : World :=
  if !w.listener then w
  else if w.shuttingDown then
    let (closed, w) := w.closeListener
    if closed then w.maybeFinishShutdown else w
  else added.foldl acceptOne w

end World

/-- What happens to a server: an event of a socket or of the retry timer, or a call of the
application. -/
inductive Event
  | accept (added : List Bool)
  | readable (c : ConnId) (rounds : List World.ReadRound)
  | writable (c : ConnId)
  | retryTick (now : UInt64)
  | wsCall (x : WsCall)
  | broadcastToRoom (room : ℕ) (buf : Bytes)
  | drainRetain
  | drainRelease
  | beginShutdown (timerOk : Bool) (now : UInt64)

/-- The world after an event. -/
def Event.exec (notify : ConnId → World → World) (w : World) : Event → World
  | .accept added => w.onAcceptCb added
  | .readable c rounds => World.onReadable notify c rounds w
  | .writable c => World.flush notify c w
  | .retryTick now => World.onShutdownRetryTick notify now w
  | .wsCall x => (World.wsCall notify x w).2
  | .broadcastToRoom room buf => World.broadcastToRoom notify room buf w
  | .drainRetain => w.drainRetain
  | .drainRelease => w.drainRelease
  | .beginShutdown timerOk now => World.beginShutdown notify timerOk now w

/-- A run of a server with an application. -/
def run (onWsClose : OnWsClose) (depth : ℕ) (w : World) (events : List Event) : World :=
  events.foldl (Event.exec (World.notifyWsClose onWsClose depth)) w

/-- Memory that holds no connection. -/
def noConn : Conn :=
  { Conn.new with server := false, isClosing := true, shutdownDone := true, sockOpen := false }

/-- `new_HttpServer`, listening, on a running loop. -/
def World.new (sends : List SendResult) (removes modifies allocs : List Bool) : World where
  conns := fun _ => noConn
  nextConn := 0
  connsHead := none
  listener := true
  shuttingDown := false
  shutdownStartedMs := 0
  drainCount := 0
  shutdownRetryTimer := false
  running := true
  sends := sends
  removes := removes
  modifies := modifies
  allocs := allocs
  deferred := []
  wsCloses := []
  shutdowns := []
  stops := []

end Server
