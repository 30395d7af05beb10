import LibCore.GameRoomRuns
import LibCore.JsonNodes

/-!
# The Pixel Game Server

`game_room_handler.c`: the WebSocket connections of a server around one room. A connection gets a
session when it opens and a place in the room when it joins. Messages are JSON texts; a handler
works on the room, answers the sender and tells every joined connection what has changed.

The handlers run on one thread, one after the other. What lies outside them answers as an `Outside`
says: the allocator, the event loop, the clock, and for each frame whether it got into the output
buffer of its connection. A frame that does not get there is lost without a trace
(`HttpConnection_ws_send` ignores it). Left out are the null checks and the log.

A send that meets an error of the socket or of the event backend closes its connection in the middle
of the handler (`HttpConnection_flush`), and cuts short the walk of a broadcast. There is no such send
here: what is said about runs is said of those without one.

## Main definitions

* `Frame`: what the server sends.
* `Conn`, `Server`: the connections and the room.
* `onWsOpen`, `onWsMessage`, `onWsClose`, `onGameOver`: the handlers.
* `Event`, `Server.exec`, `Server.run`: what can happen to a server, and runs.
-/

open CString Json

namespace PixelWar

/-- What the server sends, with the values printed into the text. -/
inductive Frame
  | roomStatus (state : RoomState) (redPlayers bluePlayers : ℕ) (readyToStart : Bool)
      (generation : UInt64) (width height brushSize : UInt16) (duration boardSeq : UInt64)
      (redScore blueScore : UInt32)
  | gameOver (redScore blueScore : UInt32) (winner : String) (generation : UInt64)
  | ack (requestId : ℤ) (status : String)
  | joinAck (playerIdx : UInt8) (team : Team) (canReset : Bool)
  | gameStarted (generation : UInt64) (width height brushSize : UInt16)
      (serverNowMs endsAtMs : UInt64)
  | paintApplied (generation seq : UInt64) (x y brushSize : UInt16) (team : Team)
      (redScore blueScore : UInt32)
deriving DecidableEq

/-- `PlayerSession`. Its room is the active one. -/
structure Session where
  userId : UInt64
  playerIdx : UInt8
  isJoined : Bool

/-- A WebSocket connection, by its address, with its session (`ws_user_data`) and the frames sent
on it so far: each with whether it got into the output buffer. -/
structure Conn where
  addr : UInt64
  session : Option Session
  isClosing : Bool
  log : List (Frame × Bool)

/-- The active room and the connections of the server, from `conns_head` on. -/
structure Server where
  room : Room
  conns : List Conn

/-- What the outside answers during one handler. -/
structure Outside extends Env where
  jsonBufAllocated : Bool
  /-- `get_monotonic_ms`. -/
  nowMs : UInt64
  /-- Whether a frame gets into the output buffer: by connection and place in its log. -/
  queued : UInt64 → ℕ → Bool

/-- A `double` whose integers can be read: `intValue` is the integer that a finite number is equal
to, if there is one. -/
structure Numbers (D : Type) extends Double D where
  intValue : D → Option ℤ

/-- `MAX_PLAYERS` as the index of no slot. -/
def noPlayer : UInt8 := 64

/-! ### Connections -/

namespace Conn

/-- A connection the broadcasts go to. -/
def isListening (c : Conn) : Bool := !c.isClosing && c.session.any (·.isJoined)

/-- `HttpConnection_ws_send`, where neither the socket nor the event backend fails: the frame is put into
the output buffer, or lost for want of memory. -/
def wsSend (ans : Outside) (c : Conn) (frame : Frame) : Conn :=
  if c.isClosing then c
  else { c with log := c.log ++ [(frame, ans.queued c.addr c.log.length)] }

end Conn

namespace Server

/-- The connection at an address. -/
def conn? (s : Server) (addr : UInt64) : Option Conn := s.conns.find? fun c => decide (c.addr = addr)

/-- Work on the connection at an address. -/
def modify (s : Server) (addr : UInt64) (f : Conn → Conn) : Server :=
  { s with conns := s.conns.map fun c => if c.addr = addr then f c else c }

/-- `remove_conn_from_server`. -/
def remove (s : Server) (addr : UInt64) : Server :=
  { s with conns := s.conns.filter fun c => decide (c.addr ≠ addr) }

/-- `HttpConnection_ws_send` to the connection at an address. -/
def send (ans : Outside) (s : Server) (addr : UInt64) (frame : Frame) : Server :=
  s.modify addr fun c => c.wsSend ans frame

/-- `Broadcast_To_Room`. No send takes a connection out of the list. -/
def broadcastToRoom (ans : Outside) (s : Server) (frame : Frame) : Server :=
  { s with conns := s.conns.map fun c => if c.isListening then c.wsSend ans frame else c }

end Server

/-- The frame of `Send_Room_Status`. -/
def roomStatusFrame (room : Room) : Frame :=
  .roomStatus room.state (room.teamCount 0 .red) (room.teamCount 0 .blue) room.canStart
    room.generation room.board.width room.board.height room.configuredBrushSize
    (room.configuredDurationMs / 1000) room.board.sequence room.board.redScore room.board.blueScore

/-- The frame of `GameRoomHandler_on_game_over`. -/
def gameOverFrame (room : Room) : Frame :=
  let winner := if room.board.redScore > room.board.blueScore then "RED"
    else if room.board.redScore < room.board.blueScore then "BLUE"
    else "TIE"
  .gameOver room.board.redScore room.board.blueScore winner room.generation

namespace Server

/-- `Broadcast_Room_Status`. -/
def broadcastRoomStatus (ans : Outside) (s : Server) : Server :=
  s.broadcastToRoom ans (roomStatusFrame s.room)

/-- `GameRoomHandler_on_game_over`. -/
def onGameOver (ans : Outside) (s : Server) : Server :=
  (s.broadcastToRoom ans (gameOverFrame s.room)).broadcastRoomStatus ans

/-- The server when an operation has made a room out of its own: an operation that ends the game
has called `GameRoomHandler_on_game_over`. -/
def setRoom (ans : Outside) (s : Server) (room : Room) : Server :=
  if s.room.state = .running ∧ room.state = .finished then ({ s with room := room }).onGameOver ans
  else { s with room := room }

/-- `Send_ACK`. -/
def sendAck (ans : Outside) (s : Server) (addr : UInt64) (reqId : ℤ) (status : String) : Server :=
  s.send ans addr (.ack reqId status)

end Server

/-! ### Messages -/

variable {D : Type}

/-- `json_number_to_int`. -/
def jsonNumberToInt (num : Numbers D) (obj : Option (Obj D)) (minValue maxValue : ℤ) : Option ℤ :=
  match obj with
  | some (.jNumber d) =>
      match num.intValue d with
      | some v => if v < minValue ∨ v > maxValue then none else some v
      | none => none
  | _ => none

/-- `json_number_to_uint64`, up to `JSON_SAFE_UINT_MAX`. -/
def jsonNumberToUint64 (num : Numbers D) (obj : Option (Obj D)) : Option UInt64 :=
  (jsonNumberToInt num obj 0 9007199254740991).map fun v => UInt64.ofNat v.toNat

/-- The cast of a number from `JOIN_GAME` to `PixelTeam`. -/
def teamOfInt (reqTeam : ℤ) : Team :=
  if reqTeam = 1 then .red else if reqTeam = 2 then .blue else .empty

/-- `"JOIN_GAME"`. -/
abbrev joinGameType : Bytes := ascii ['J', 'O', 'I', 'N', '_', 'G', 'A', 'M', 'E']

/-- `"RESET_GAME"`. -/
abbrev resetGameType : Bytes := ascii ['R', 'E', 'S', 'E', 'T', '_', 'G', 'A', 'M', 'E']

/-- `"START_GAME"`. -/
abbrev startGameType : Bytes := ascii ['S', 'T', 'A', 'R', 'T', '_', 'G', 'A', 'M', 'E']

/-- `"PAINT"`. -/
abbrev paintType : Bytes := ascii ['P', 'A', 'I', 'N', 'T']

namespace Server

/-- `JOIN_GAME`. -/
def joinGame (num : Numbers D) (ans : Outside) (s : Server) (addr : UInt64) (session : Session)
    (root : Obj D) : Server :=
  match jsonNumberToInt num (nodeGet root (ascii ['t', 'e', 'a', 'm'])) 1 2 with
  | none => s.sendAck ans addr 0 "ERROR_INVALID_TEAM"
  | some reqTeam =>
      match s.room.assignPlayer session.userId (teamOfInt reqTeam) with
      | (none, room) =>
          (s.setRoom ans room).sendAck ans addr 0 "ERROR_ROOM_FULL_OR_RUNNING"
      | (some (i, canReset), room) =>
          let idx := UInt8.ofNat i
          let s := (s.setRoom ans room).modify addr fun c =>
            { c with session := some { session with playerIdx := idx, isJoined := true } }
          let s := s.send ans addr (.joinAck idx (room.playerTeams i) canReset)
          s.broadcastRoomStatus ans

/-- `RESET_GAME`. -/
def resetGame (num : Numbers D) (ans : Outside) (s : Server) (addr : UInt64) (session : Session)
    (root : Obj D) : Server :=
  match jsonNumberToInt num (nodeGet root (ascii ['w', 'i', 'd', 't', 'h'])) 8 2048,
      jsonNumberToInt num (nodeGet root (ascii ['h', 'e', 'i', 'g', 'h', 't'])) 8 2048,
      jsonNumberToInt num (nodeGet root (ascii ['b', 'r', 'u', 's', 'h', 'S', 'i', 'z', 'e'])) 1 50,
      jsonNumberToInt num (nodeGet root (ascii ['d', 'u', 'r', 'a', 't', 'i', 'o', 'n'])) 1 3600 with
  | some w, some h, some brush, some duration =>
      match s.room.reset ans.toEnv session.userId (UInt16.ofNat w.toNat) (UInt16.ofNat h.toNat)
          (UInt16.ofNat brush.toNat) (UInt64.ofNat duration.toNat * 1000) with
      | some room =>
          ((s.setRoom ans room).sendAck ans addr 0 "SUCCESS").broadcastRoomStatus ans
      | none => s.sendAck ans addr 0 "ERROR_RESET_FAILED_OR_NOT_INITIALIZER"
  | _, _, _, _ => s.sendAck ans addr 0 "ERROR_INVALID_FIELDS"

/-- `START_GAME`. -/
def startGame (ans : Outside) (s : Server) (addr : UInt64) (session : Session) : Server :=
  if !session.isJoined then s.sendAck ans addr 0 "ERROR_NOT_JOINED"
  else
    match s.room.start ans.toEnv ans.nowMs with
    | some room =>
        let s := s.setRoom ans room
        let s := s.broadcastToRoom ans (.gameStarted room.generation room.board.width
          room.board.height room.brushSize ans.nowMs room.endsAtMs)
        s.broadcastRoomStatus ans
    | none => s.sendAck ans addr 0 "ERROR_START_FAILED"

/-- The answer to `PAINT`, by the result of `GameRoom_paint`. -/
def answerPaint (ans : Outside) (s : Server) (addr : UInt64) (session : Session) (reqId : ℤ)
    (x y : UInt16) : PaintResult → Server
  | .staleGeneration => s.sendAck ans addr reqId "REJECT_STALE_GENERATION"
  | .timeOver => s.sendAck ans addr reqId "REJECT_TIME_OVER"
  | .cooldown => s.sendAck ans addr reqId "REJECT_COOLDOWN"
  | .changed =>
      let team := ((slotOf session.playerIdx).map s.room.playerTeams).getD .empty
      (s.broadcastToRoom ans (.paintApplied s.room.generation s.room.board.sequence x y
        s.room.brushSize team s.room.board.redScore s.room.board.blueScore)).sendAck ans addr reqId
          "SUCCESS"
  | .unchanged => s.sendAck ans addr reqId "ACK_UNCHANGED"
  | .error => s.sendAck ans addr reqId "ERROR_PAINT_FAILED"

/-- `PAINT`. -/
def paintGame (num : Numbers D) (ans : Outside) (s : Server) (addr : UInt64) (session : Session)
    (root : Obj D) : Server :=
  if !session.isJoined then s.sendAck ans addr 0 "ERROR_NOT_JOINED"
  else
    match jsonNumberToInt num
          (nodeGet root (ascii ['r', 'e', 'q', 'u', 'e', 's', 't', 'I', 'd'])) 0 (2 ^ 31 - 1),
        jsonNumberToUint64 num
          (nodeGet root (ascii ['g', 'e', 'n', 'e', 'r', 'a', 't', 'i', 'o', 'n'])) with
    | some reqId, some reqGen =>
        if reqGen ≠ s.room.generation then s.sendAck ans addr reqId "REJECT_STALE_GENERATION"
        else
          match jsonNumberToInt num (nodeGet root (ascii ['x'])) 0 (s.room.board.width.toNat - 1),
              jsonNumberToInt num (nodeGet root (ascii ['y'])) 0
                (s.room.board.height.toNat - 1) with
          | some xVal, some yVal =>
              let x := UInt16.ofNat xVal.toNat
              let y := UInt16.ofNat yVal.toNat
              let (result, room) := s.room.paint session.playerIdx reqGen x y ans.nowMs
              (s.setRoom ans room).answerPaint ans addr session reqId x y result
          | _, _ => s.sendAck ans addr reqId "ERROR_INVALID_FIELDS_OR_OUT_OF_BOUNDS"
    | _, _ => s.sendAck ans addr 0 "ERROR_INVALID_FIELDS"

/-! ### The handlers -/

/-- `GameRoomHandler_on_ws_message`, for a connection that has a session. -/
def onWsMessage (num : Numbers D) (ans : Outside) (s : Server) (addr : UInt64) (session : Session)
    (msg : Bytes) : Server :=
  if msg.length = 0 ∨ msg.length > 8191 ∨ 0 ∈ msg then s.sendAck ans addr 0 "ERROR_INVALID_JSON"
  else if !ans.jsonBufAllocated then s.sendAck ans addr 0 "ERROR_INTERNAL"
  else
    match parseJSON num.toDouble msg with
    | .error _ => s.sendAck ans addr 0 "ERROR_INVALID_JSON"
    | .ok root =>
        match nodeGetStringLen root (ascii ['t', 'y', 'p', 'e']) with
        | none => s.sendAck ans addr 0 "ERROR_MISSING_TYPE"
        | some type =>
            if type = joinGameType then s.joinGame num ans addr session root
            else if type = resetGameType then s.resetGame num ans addr session root
            else if type = startGameType then s.startGame ans addr session
            else if type = paintType then s.paintGame num ans addr session root
            else s.sendAck ans addr 0 "ERROR_UNKNOWN_TYPE"

/-- `GameRoomHandler_on_ws_open`, for a connection that takes a place among the others. -/
def onWsOpen (ans : Outside) (s : Server) (addr : UInt64) (place : ℕ) (sessionAllocated : Bool) :
    Server :=
  let c : Conn :=
    if sessionAllocated then
      ({ addr := addr, session := some ⟨addr, noPlayer, false⟩, isClosing := false, log := [] } :
        Conn).wsSend ans (roomStatusFrame s.room)
    else { addr := addr, session := none, isClosing := false, log := [] }
  { s with conns := s.conns.take place ++ c :: s.conns.drop place }

/-- `conn_shutdown` with `GameRoomHandler_on_ws_close`: the connection is closing when the handler
runs, and leaves the server afterwards. -/
def onWsClose (ans : Outside) (s : Server) (c : Conn) : Server :=
  let s := s.modify c.addr fun c => { c with isClosing := true }
  let s := match c.session with
    | some session =>
        if session.isJoined then
          (s.setRoom ans (s.room.removePlayer ans.toEnv session.playerIdx).2).broadcastRoomStatus ans
        else s
    | none => s
  s.remove c.addr

end Server

/-! ### Runs -/

/-- What can happen to a server. -/
inductive Event
  /-- A connection is upgraded to WebSocket. -/
  | wsOpen (ans : Outside) (addr : UInt64) (place : ℕ) (sessionAllocated : Bool)
  | message (ans : Outside) (addr : UInt64) (msg : Bytes)
  /-- The server starts to close a connection: it sends no more, and reads no more. -/
  | closing (addr : UInt64)
  | wsClose (ans : Outside) (addr : UInt64)
  /-- `on_room_timer_expired`. -/
  | timerExpired (ans : Outside)

/-- The server after an event. The address of a new connection is not null and not in use; only an
open connection is read. -/
def Server.exec (num : Numbers D) (s : Server) : Event → Server
  | .wsOpen ans addr place sessionAllocated =>
      if addr = 0 ∨ (s.conn? addr).isSome then s else s.onWsOpen ans addr place sessionAllocated
  | .message ans addr msg =>
      match s.conn? addr with
      | some ⟨_, some session, false, _⟩ => s.onWsMessage num ans addr session msg
      | _ => s
  | .closing addr => s.modify addr fun c => { c with isClosing := true }
  | .wsClose ans addr =>
      match s.conn? addr with
      | some c => s.onWsClose ans c
      | none => s
  | .timerExpired ans => s.setRoom ans s.room.triggerTimeOver

/-- A server around a new room. -/
def newServer (roomId : UInt64) (w h : UInt16) : Option Server :=
  (newGameRoom roomId w h).map fun room => ⟨room, []⟩

/-- A run of events. -/
def Server.run (num : Numbers D) (s : Server) (events : List Event) : Server :=
  events.foldl (Server.exec num) s

end PixelWar
