import LibCore.ToosMoves

/-!
# ToosType: The WebSocket Adapter

`toos_type_ws.c`, with the part of `http_server.c` it runs into. The dispatcher sends an event to
its target, or to every player if there is none. A send that fails shuts the connection down, and
the shutdown calls `ToosTypeGameContext_disconnect` before the send returns: the context changes
in the middle of a call. So the operations are those of `toos_type_game_context.c` again, on a
world with a wire; whatever the source reads through a pointer after an event is read after it
here. A player is a slot, as a pointer to one is. Messages are not encoded.

A connection that is closing takes no more messages, so a shutdown within a shutdown is of another
connection. The fuel of `emitAt` is how deep shutdowns may nest.

## Main definitions

* `World`, `Wire`, `Delivery`: a context and its connections.
* `wsSend`, `broadcastWsMessage`, `wsEventDispatcher`, `emitAt`: the adapter.
* `Live.exec`, `Live.run`: the operations with the adapter.

## Main results

* `Live.exec_ctx`: if no send fails, the operations are those of the context alone.
-/

open CString

namespace ToosType

/-- A message handed to a connection, and the connection at that moment of the player it concerns,
if it concerns one. -/
structure Delivery where
  conn : Conn
  payload : Payload
  owner : Option Conn

/-- Which sends fail, and what `get_current_ms` says in the shutdowns they cause (zero if the
clock fails); sends are numbered in their order. -/
structure Wire where
  fails : ℕ → Bool
  closeMs : ℕ → UInt64

/-- The context, the connections that are closing, the number of sends and the messages sent. -/
structure World where
  ctx : Ctx
  closing : List Conn
  sends : ℕ
  delivered : List Delivery

namespace World

/-- The world with another context. -/
def withCtx (w : World) (ctx : Ctx) : World := { w with ctx := ctx }

/-- The world with another player in slot `i`. -/
def setPlayer (w : World) (i : Fin maxRoomPlayers) (p : Player) : World :=
  w.withCtx (w.ctx.setPlayer i p)

/-- A message on its way. -/
def deliver (w : World) (about : Option (Fin maxRoomPlayers)) (payload : Payload) (conn : Conn) :
    World :=
  { w with
    sends := w.sends + 1
    delivered := w.delivered ++
      [⟨conn, payload, about.bind fun i => (w.ctx.players i).connPtr⟩] }

/-- A connection is shut down. -/
def close (w : World) (conn : Conn) : World := { w with closing := conn :: w.closing }

end World

/-- `HttpConnection_ws_send`, with the `on_ws_close` of the server. -/
def wsSend (wire : Wire) (onWsClose : World → Conn → UInt64 → World)
    (about : Option (Fin maxRoomPlayers)) (payload : Payload) (w : World) (conn : Conn) : World :=
  if conn ∈ w.closing then w
  else if wire.fails w.sends then
    onWsClose ((w.deliver about payload conn).close conn) conn (wire.closeMs w.sends)
  else w.deliver about payload conn

/-- The body of the loop of `broadcast_ws_message`. -/
def broadcastTo (send : World → Conn → World) (w : World) (i : Fin maxRoomPlayers) : World :=
  if (w.ctx.players i).occupied then
    match (w.ctx.players i).connPtr with
    | some conn => send w conn
    | none => w
  else w

/-- `broadcast_ws_message`. -/
def broadcastWsMessage (send : World → Conn → World) (w : World) : World :=
  slots.foldl (broadcastTo send) w

/-- `ws_event_dispatcher`. -/
def wsEventDispatcher (send : World → Conn → World) (target : Option Conn) (w : World) : World :=
  match target with
  | some conn => send w conn
  | none => broadcastWsMessage send w

/-- `emit_event`: the player the event concerns, its target and its payload. -/
abbrev Emit := World → Option (Fin maxRoomPlayers) → Option Conn → Payload → World

/-- `emit_event` with the adapter. -/
def emitWith (wire : Wire) (onWsClose : World → Conn → UInt64 → World) : Emit :=
  fun w about target payload =>
    wsEventDispatcher (wsSend wire onWsClose about payload) target
      (w.withCtx (emitEvent w.ctx target payload))

theorem emitWith_some (wire : Wire) (onWsClose : World → Conn → UInt64 → World) (w : World)
    (about : Option (Fin maxRoomPlayers)) (conn : Conn) (payload : Payload) :
    emitWith wire onWsClose w about (some conn) payload = wsSend wire onWsClose about payload
      (w.withCtx (emitEvent w.ctx (some conn) payload)) conn := rfl

theorem emitWith_none (wire : Wire) (onWsClose : World → Conn → UInt64 → World) (w : World)
    (about : Option (Fin maxRoomPlayers)) (payload : Payload) :
    emitWith wire onWsClose w about none payload =
      broadcastWsMessage (wsSend wire onWsClose about payload)
        (w.withCtx (emitEvent w.ctx none payload)) := rfl

/-- The payload of `emit_room_config`. -/
def roomConfig (ctx : Ctx) : Payload :=
  .roomConfig ctx.room.roomId ctx.room.state ctx.room.language ctx.room.languageLocked
    ctx.room.hostPlayerNo ctx.room.totalDurationMs.toUInt32 (connectedCount ctx) (readyCount ctx)
    (decide (connectedCount ctx ≥ minRoomPlayers ∧ connectedCount ctx = readyCount ctx))

namespace Live

section Operations

variable (emit : Emit)

/-- `emit_error`. -/
def emitError (w : World) (conn : Option Conn) (msg : String) : World :=
  emit w none conn (.error msg)

/-- `emit_room_config` to the room. -/
def emitRoomConfig (w : World) : World := emit w none none (roomConfig w.ctx)

/-- `ToosTypeGameContext_disconnect`. -/
def disconnect (w : World) (conn : Conn) (nowMs : UInt64) : World :=
  let nowMs := if nowMs = 0 then w.ctx.lastTickMs else nowMs
  match findPlayerByConn w.ctx conn with
  | none => w
  | some i =>
      if w.ctx.room.state = .countdown then
        let ctx := leave w.ctx i
        let ctx := { ctx with room := ctx.room.cancelCountdown nowMs }
        if ctx.activePlayerCount = 0 then w.withCtx (resetEmptyRoom ctx nowMs)
        else
          let w := w.withCtx (refreshConfigLock (resetSpawnEngine ctx))
          emitRoomConfig emit (emit w none none (.gameState .waiting 0 0))
      else if w.ctx.room.state = .waiting then
        let ctx := leave w.ctx i
        if ctx.activePlayerCount = 0 then w.withCtx (resetEmptyRoom ctx nowMs)
        else emitRoomConfig emit (w.withCtx (refreshConfigLock ctx))
      else
        let ctx := dropOut w.ctx i nowMs
        if slots.any fun i => (ctx.players i).occupied && (ctx.players i).connected then
          w.withCtx ctx
        else w.withCtx (resetEmptyRoom ctx nowMs)

/-- A call that changes the context and then emits what it has to say, which is one event. -/
def settle (w : World) (ctx : Ctx) : World :=
  (ctx.sent.drop w.ctx.sent.length).foldl (fun w ev => emit w none ev.target ev.payload)
    (w.withCtx { ctx with sent := w.ctx.sent })

/-- `ToosTypeGameContext_join`. -/
def join (w : World) (conn : Conn) : World :=
  if w.ctx.room.state ≠ .waiting then
    emitError emit w (some conn) "ERROR_GAME_ALREADY_STARTED"
  else if (findPlayerByConn w.ctx conn).isSome then
    emitError emit w (some conn) "ERROR_ALREADY_JOINED"
  else
    match slots.find? fun i => !(w.ctx.players i).occupied with
    | none => emitError emit w (some conn) "ERROR_ROOM_FULL"
    | some i =>
        let p := newcomer (UInt32.ofNat (i + 1)) w.ctx.nextJoinSeq conn
        let ctx := recalculateHost
          { w.ctx.setPlayer i p with
            nextJoinSeq := w.ctx.nextJoinSeq + 1
            activePlayerCount := w.ctx.activePlayerCount + 1 }
        let w := emit (w.withCtx ctx) none (some conn)
          (.joinAck p.playerNo (decide (p.playerNo = ctx.room.hostPlayerNo)))
        emitRoomConfig emit w

/-- `ToosTypeGameContext_start_game`. -/
def startGame (w : World) (conn : Conn) (nowMs : UInt64) : World :=
  if nowMs = 0 then w
  else if w.ctx.room.state ≠ .waiting then emitError emit w (some conn) "ERROR_NOT_WAITING"
  else if !isHost w.ctx conn then
    emitError emit (w.withCtx (if w.ctx.spawn.loaded then resetSpawnEngine w.ctx else w.ctx))
      (some conn) "ERROR_NOT_HOST"
  else if connectedCount w.ctx < minRoomPlayers ∨ readyCount w.ctx ≠ connectedCount w.ctx then
    emitError emit (w.withCtx (if w.ctx.spawn.loaded then resetSpawnEngine w.ctx else w.ctx))
      (some conn) "ERROR_NOT_ALL_READY_OR_NOT_ENOUGH_PLAYERS"
  else if !w.ctx.spawn.loaded then emitError emit w (some conn) "ERROR_START_NOT_PREPARED"
  else
    match w.ctx.room.startCountdown nowMs with
    | none =>
        emitError emit (w.withCtx (resetSpawnEngine w.ctx)) (some conn)
          "ERROR_START_COUNTDOWN_FAILED"
    | some room =>
        let w := emit (w.withCtx { w.ctx with room := room }) none none (.countdown
          (if room.countdownEndsAtMs > nowMs then room.countdownEndsAtMs - nowMs else 0))
        emitRoomConfig emit w

/-- `issue_next_sentence`, for the player in slot `i`. -/
def issueNextSentence (w : World) (i : Fin maxRoomPlayers) (nowMs : UInt64) : World :=
  let p := w.ctx.players i
  let room := w.ctx.room
  let nextTimeout := room.sentenceTimeoutMs nowMs
  if nowMs ≥ room.gameEndMs ∨ room.gameEndMs - nowMs < nextTimeout then w.setPlayer i p.awaitEnd
  else
    let phase := room.phaseAt nowMs
    match Room.phaseIndex phase with
    | none =>
        let w := emitError emit w p.connPtr "ERROR_INVALID_PHASE"
        w.setPlayer i (w.ctx.players i).awaitEnd
    | some k =>
        let cursor := p.phaseCursor k
        match w.ctx.spawn.ensureCursor phase cursor with
        | (false, spawn) =>
            let w := emitError emit (w.withCtx { w.ctx with spawn := spawn }) p.connPtr
              "ERROR_SPAWN_CURSOR_FAILED"
            w.setPlayer i (w.ctx.players i).awaitEnd
        | (true, spawn) =>
            let w := w.withCtx { w.ctx with spawn := spawn }
            match spawn.sentenceAt phase cursor with
            | some sent =>
                emit (w.setPlayer i (p.deal sent phase nowMs nextTimeout)) (some i) p.connPtr
                  (.sentenceDrop sent.id (room.textOf sent) nextTimeout)
            | none => w.setPlayer i p.awaitEnd

/-- The end of `ToosTypeGameContext_submit` and of a deadline: the cursor moves on and the next
sentence is due. -/
def advance (w : World) (i : Fin maxRoomPlayers) (nowMs : UInt64) : World :=
  issueNextSentence emit (w.setPlayer i (w.ctx.players i).advanceCursor) i nowMs

/-- `ToosTypeGameContext_submit`, on the `len` bytes at `input`. -/
def submit (w : World) (conn : Conn) (sentenceId : UInt64) (input : Bytes) (nowMs : UInt64) :
    World :=
  if w.ctx.room.state ≠ .playing then w
  else
    let nowMs := if nowMs = 0 then w.ctx.lastTickMs else nowMs
    match findPlayerByConn w.ctx conn with
    | none => w
    | some i =>
        let p := w.ctx.players i
        if !p.connected ∨ p.finishStatus ≠ .none then w
        else if p.awaitingGameEnd ∨ p.activeSentenceId = 0 then
          emit w (some i) (some conn) (.sentenceResult sentenceId .stale)
        else
          match Room.phaseIndex p.activePhase with
          | none => emitError emit w (some conn) "ERROR_INVALID_ACTIVE_PHASE"
          | some k =>
              match w.ctx.spawn.sentenceAt p.activePhase (p.phaseCursor k) with
              | none => w
              | some target =>
                  let jres := judgeSubmit target p.activeSentenceId sentenceId input nowMs
                    p.sentenceDeadlineMs w.ctx.room.language
                  if jres = .error then emitError emit w (some conn) "JUDGE_INTERNAL_ERROR"
                  else if jres = .stale then
                    emit w (some i) (some conn) (.sentenceResult sentenceId .stale)
                  else
                    let w := w.setPlayer i (p.judged w.ctx.room k input jres nowMs)
                    let w := emit w (some i) (some conn) (.sentenceResult sentenceId jres)
                    let w := emit w (some i) (some conn)
                      (scoreUpdate (w.ctx.players i) sentenceId)
                    if jres = .correct ∨ jres = .expired then advance emit w i nowMs else w

/-- The end of the game for the player in slot `i`. -/
def finishPlayer (w : World) (i : Fin maxRoomPlayers) : World :=
  let p := w.ctx.players i
  if p.occupied && decide (p.finishStatus = .none) then
    let expires := p.activeSentenceId ≠ 0 ∧ p.sentenceDeadlineMs ≤ w.ctx.room.gameEndMs
    let w := if expires then
        emit (w.setPlayer i { p.clearSentence with expiredCount := p.expiredCount + 1 }) (some i)
          p.connPtr (.sentenceResult p.activeSentenceId .expired)
      else w
    let room := w.ctx.room
    w.setPlayer i (updatePlayerStats room { w.ctx.players i with
      playedMs := room.gameEndMs - room.gameStartMs, finishStatus := .finished } room.gameEndMs)
  else w

/-- The first sentence for the player in slot `i`. -/
def dealPlayer (nowMs : UInt64) (w : World) (i : Fin maxRoomPlayers) : World :=
  if (w.ctx.players i).occupied && (w.ctx.players i).connected then
    issueNextSentence emit w i nowMs
  else w

/-- The deadline of the player in slot `i`. -/
def expirePlayer (nowMs : UInt64) (w : World) (i : Fin maxRoomPlayers) : World :=
  let p := w.ctx.players i
  if p.occupied && p.connected && decide (p.finishStatus = .none) then
    if p.activeSentenceId ≠ 0 ∧ nowMs ≥ p.sentenceDeadlineMs then
      let w := w.setPlayer i
        (updatePlayerStats w.ctx.room { p with expiredCount := p.expiredCount + 1 } nowMs)
      let w := emit w (some i) p.connPtr (.sentenceResult p.activeSentenceId .expired)
      let w := emit w (some i) (w.ctx.players i).connPtr
        (scoreUpdate (w.ctx.players i) p.activeSentenceId)
      advance emit w i nowMs
    else w
  else w

/-- `ToosTypeGameContext_tick` up to the deadlines: whether it goes on to them, and the world. -/
def tickRoom (w : World) (nowMs : UInt64) : Bool × World :=
  let (res, room) := w.ctx.room.tick nowMs
  let w := w.withCtx { w.ctx with lastTickMs := nowMs, room := room }
  match res with
  | .gameStarted =>
      let w := emit w none none (.gameState .playing room.currentPhase
        (gameRemainingMs room nowMs))
      let w := emitRoomConfig emit w
      (true, slots.foldl (dealPlayer emit nowMs) w)
  | .phaseChanged =>
      (true, emit w none none (.phaseChanged room.currentPhase (room.sentenceTimeoutMs nowMs)
        (gameRemainingMs room nowMs)))
  | .gameEnded =>
      let w := slots.foldl (finishPlayer emit) w
      let ranking := finalRanking w.ctx.players
      let w := emit w none none (.gameOver "NORMAL_END")
      let w := emit w none none (.finalRanking ranking)
      (false, emitRoomConfig emit w)
  | .none => (true, w)

/-- The last part of a tick: the deadlines of a running game. -/
def tickDeadlines (w : World) (nowMs : UInt64) : World :=
  if w.ctx.room.state = .playing then slots.foldl (expirePlayer emit nowMs) w else w

/-- `ToosTypeGameContext_tick`. -/
def tick (w : World) (nowMs : UInt64) : World :=
  let nowMs := if nowMs = 0 then w.ctx.lastTickMs else nowMs
  let (goesOn, w) := tickRoom emit w nowMs
  if goesOn then tickDeadlines emit w nowMs else w

/-- The world after a call. -/
def exec (w : World) : Op → World
  | .join (some conn) => join emit w conn
  | .startGame (some conn) nowMs => startGame emit w conn nowMs
  | .submit (some conn) sentenceId input nowMs => submit emit w conn sentenceId input nowMs
  | .disconnect (some conn) nowMs => disconnect emit w conn nowMs
  | .tick nowMs => tick emit w nowMs
  | op => settle emit w (op.exec w.ctx)

end Operations

end Live

/-- `emit_event` with the adapter, for shutdowns that nest at most `fuel` deep: `on_ws_close` calls
`ToosTypeGameContext_disconnect`. -/
def emitAt (wire : Wire) : ℕ → Emit
  | 0 => emitWith wire fun w _ _ => w
  | fuel + 1 => emitWith wire (Live.disconnect (emitAt wire fuel))

/-- What happens to a game: a call, or a connection that starts closing on the side of the server
and has not been shut down. -/
inductive Act
  | call (op : Op)
  | hangUp (conn : Conn)

namespace Live

/-- The world after an act. -/
def act (wire : Wire) (fuel : ℕ) (w : World) : Act → World
  | .call op => exec (emitAt wire fuel) w op
  | .hangUp conn => w.close conn

/-- A run of acts. -/
def run (wire : Wire) (fuel : ℕ) (w : World) (acts : List Act) : World :=
  acts.foldl (act wire fuel) w

end Live

/-- A new context, and nothing sent. -/
def World.init (roomId : UInt64) (profile : Profile) : World := ⟨Ctx.init roomId profile, [], 0, []⟩

/-! ### Sends that do not fail -/

/-- An event is recorded and nothing else happens to the context. -/
def Echo (emit : Emit) : Prop :=
  ∀ w about target payload, (emit w about target payload).ctx = emitEvent w.ctx target payload

theorem wsSend_of_succeeds {wire : Wire} (onWsClose : World → Conn → UInt64 → World)
    (about : Option (Fin maxRoomPlayers)) (payload : Payload) {w : World} {conn : Conn}
    (h : conn ∈ w.closing ∨ wire.fails w.sends = false) :
    wsSend wire onWsClose about payload w conn = w ∧ conn ∈ w.closing ∨
      wsSend wire onWsClose about payload w conn = w.deliver about payload conn ∧
        conn ∉ w.closing := by
  rw [wsSend]
  by_cases hclosing : conn ∈ w.closing
  · rw [if_pos hclosing]
    exact .inl ⟨rfl, hclosing⟩
  · have hsucceeds := h.resolve_left hclosing
    rw [if_neg hclosing, hsucceeds, if_neg (by simp)]
    exact .inr ⟨rfl, hclosing⟩

/-- What every send keeps is kept by a broadcast. -/
theorem broadcast_invariant {P : World → Prop} {send : World → Conn → World}
    (hsend : ∀ w i conn, P w → (w.ctx.players i).occupied = true →
      (w.ctx.players i).connPtr = some conn → P (send w conn)) {w : World} (h : P w) :
    P (broadcastWsMessage send w) := by
  have hloop : ∀ (is : List (Fin maxRoomPlayers)) (w : World), P w →
      P (is.foldl (broadcastTo send) w) := by
    intro is
    induction is with
    | nil => exact fun _ h => h
    | cons i is ih =>
        intro w h
        refine ih _ ?_
        rw [broadcastTo]
        split_ifs with hocc
        · split
          · rename_i conn hconn
            exact hsend w i conn h hocc hconn
          · exact h
        · exact h
  exact hloop slots w h

theorem echo_emitWith {wire : Wire} (hwire : ∀ n, wire.fails n = false)
    (onWsClose : World → Conn → UInt64 → World) : Echo (emitWith wire onWsClose) := by
  have hsend : ∀ about payload (w : World) conn,
      (wsSend wire onWsClose about payload w conn).ctx = w.ctx := by
    intro about payload w conn
    obtain ⟨heq, -⟩ | ⟨heq, -⟩ :=
      wsSend_of_succeeds onWsClose about payload (.inr (hwire w.sends) : conn ∈ w.closing ∨ _)
    · rw [heq]
    · rw [heq]
      rfl
  intro w about target payload
  cases target with
  | some conn => exact hsend _ _ _ _
  | none =>
      rw [emitWith_none]
      refine broadcast_invariant (P := fun w' => w'.ctx = emitEvent w.ctx none payload) ?_ rfl
      exact fun w' i conn h _ _ => (hsend _ _ _ _).trans h

theorem echo_emitAt {wire : Wire} (hwire : ∀ n, wire.fails n = false) (fuel : ℕ) :
    Echo (emitAt wire fuel) := by
  cases fuel with
  | zero => exact echo_emitWith hwire _
  | succ fuel => exact echo_emitWith hwire _

namespace Live

section Echo

variable {emit : Emit} (h : Echo emit)

include h

theorem emit_ctx (w : World) (about : Option (Fin maxRoomPlayers)) (target : Option Conn)
    (payload : Payload) : (emit w about target payload).ctx = emitEvent w.ctx target payload :=
  h w about target payload

theorem emitError_ctx (w : World) (conn : Option Conn) (msg : String) :
    (emitError emit w conn msg).ctx = ToosType.emitError w.ctx conn msg := h w none conn _

theorem emitRoomConfig_ctx (w : World) :
    (emitRoomConfig emit w).ctx = ToosType.emitRoomConfig w.ctx none := h w none none _

theorem disconnect_ctx (w : World) (conn : Conn) (nowMs : UInt64) :
    (disconnect emit w conn nowMs).ctx = (ToosType.disconnect w.ctx conn nowMs).2 := by
  rw [disconnect, ToosType.disconnect]
  simp only
  generalize (if nowMs = 0 then w.ctx.lastTickMs else nowMs) = t
  cases findPlayerByConn w.ctx conn with
  | none => rfl
  | some i =>
      simp only
      split_ifs
      · rfl
      · rw [emitRoomConfig_ctx h, h]
        rfl
      · rfl
      · rw [emitRoomConfig_ctx h]
        rfl
      · rfl
      · rfl

theorem foldl_emit_ctx (evs : List Event) (w : World) :
    (evs.foldl (fun w ev => emit w none ev.target ev.payload) w).ctx = w.ctx.emit evs := by
  induction evs generalizing w with
  | nil => exact (emit_nil _).symm
  | cons ev evs ih =>
      rw [List.foldl_cons, ih, h]
      simp [Ctx.emit, emitEvent]

theorem settle_ctx {w : World} {ctx : Ctx} (hquiet : Quiet (fun _ _ => True) w.ctx ctx) :
    (settle emit w ctx).ctx = ctx := by
  obtain ⟨evs, -, hsent⟩ := hquiet.events
  rw [settle, foldl_emit_ctx h, hsent, List.drop_left]
  cases ctx
  simp only at hsent
  simp [Ctx.emit, World.withCtx, hsent]

theorem join_ctx (w : World) (conn : Conn) :
    (join emit w conn).ctx = (ToosType.join w.ctx conn).2 := by
  rw [join, ToosType.join]
  split_ifs
  · exact emitError_ctx h w _ _
  · exact emitError_ctx h w _ _
  · cases slots.find? fun i => !(w.ctx.players i).occupied with
    | none => exact emitError_ctx h w _ _
    | some i =>
        simp only
        rw [emitRoomConfig_ctx h, h]
        rfl

theorem startGame_ctx (w : World) (conn : Conn) (nowMs : UInt64) :
    (startGame emit w conn nowMs).ctx = (ToosType.startGame w.ctx conn nowMs).2 := by
  rw [startGame, ToosType.startGame]
  by_cases hzero : nowMs = 0
  · rw [if_pos hzero, if_pos hzero]
  rw [if_neg hzero, if_neg hzero]
  by_cases hstate : w.ctx.room.state ≠ .waiting
  · rw [if_pos hstate, if_pos hstate]
    exact emitError_ctx h _ _ _
  rw [if_neg hstate, if_neg hstate]
  by_cases hhost : (!isHost w.ctx conn) = true
  · rw [if_pos hhost, if_pos hhost]
    exact emitError_ctx h _ _ _
  rw [if_neg hhost, if_neg hhost]
  by_cases hready : connectedCount w.ctx < minRoomPlayers ∨ readyCount w.ctx ≠ connectedCount w.ctx
  · rw [if_pos hready, if_pos hready]
    exact emitError_ctx h _ _ _
  rw [if_neg hready, if_neg hready]
  by_cases hloaded : (!w.ctx.spawn.loaded) = true
  · rw [if_pos hloaded, if_pos hloaded]
    exact emitError_ctx h _ _ _
  rw [if_neg hloaded, if_neg hloaded]
  cases w.ctx.room.startCountdown nowMs with
  | none => exact emitError_ctx h _ _ _
  | some room =>
      simp only
      rw [emitRoomConfig_ctx h, h]
      rfl

theorem issueNextSentence_ctx (w : World) (i : Fin maxRoomPlayers) (nowMs : UInt64) :
    (issueNextSentence emit w i nowMs).ctx = ToosType.issueNextSentence w.ctx i nowMs := by
  rw [issueNextSentence, ToosType.issueNextSentence]
  simp only
  by_cases htime : nowMs ≥ w.ctx.room.gameEndMs ∨
      w.ctx.room.gameEndMs - nowMs < w.ctx.room.sentenceTimeoutMs nowMs
  · rw [if_pos htime, if_pos htime]
    rfl
  rw [if_neg htime, if_neg htime]
  cases Room.phaseIndex (w.ctx.room.phaseAt nowMs) with
  | none =>
      simp only [World.setPlayer, World.withCtx, emitError_ctx h]
      rfl
  | some k =>
      simp only
      cases w.ctx.spawn.ensureCursor (w.ctx.room.phaseAt nowMs) ((w.ctx.players i).phaseCursor k) with
      | mk ok spawn =>
          cases ok with
          | false =>
              simp only [World.setPlayer, World.withCtx, emitError_ctx h]
              rfl
          | true =>
              simp only
              cases spawn.sentenceAt (w.ctx.room.phaseAt nowMs) ((w.ctx.players i).phaseCursor k) with
              | none => rfl
              | some sent =>
                  simp only
                  rw [h]
                  rfl

theorem advance_ctx (w : World) (i : Fin maxRoomPlayers) (nowMs : UInt64) :
    (advance emit w i nowMs).ctx =
      ToosType.issueNextSentence (w.ctx.setPlayer i (w.ctx.players i).advanceCursor) i nowMs :=
  issueNextSentence_ctx h _ i nowMs

theorem submit_ctx (w : World) (conn : Conn) (sentenceId : UInt64) (input : Bytes)
    (nowMs : UInt64) : (submit emit w conn sentenceId input nowMs).ctx =
      (ToosType.submit w.ctx conn sentenceId input nowMs).2 := by
  rw [submit, ToosType.submit]
  by_cases hstate : w.ctx.room.state ≠ .playing
  · rw [if_pos hstate, if_pos hstate]
  rw [if_neg hstate, if_neg hstate]
  simp only
  generalize (if nowMs = 0 then w.ctx.lastTickMs else nowMs) = t
  cases findPlayerByConn w.ctx conn with
  | none => rfl
  | some i =>
      simp only
      by_cases hout : (!(w.ctx.players i).connected) = true ∨ (w.ctx.players i).finishStatus ≠ .none
      · rw [if_pos hout, if_pos hout]
      rw [if_neg hout, if_neg hout]
      by_cases hidle : (w.ctx.players i).awaitingGameEnd = true ∨
          (w.ctx.players i).activeSentenceId = 0
      · rw [if_pos hidle, if_pos hidle]
        exact h _ _ _ _
      rw [if_neg hidle, if_neg hidle]
      cases Room.phaseIndex (w.ctx.players i).activePhase with
      | none => exact emitError_ctx h _ _ _
      | some k =>
          simp only
          cases w.ctx.spawn.sentenceAt (w.ctx.players i).activePhase
              ((w.ctx.players i).phaseCursor k) with
          | none => rfl
          | some target =>
              simp only
              generalize judgeSubmit target (w.ctx.players i).activeSentenceId sentenceId input t
                (w.ctx.players i).sentenceDeadlineMs w.ctx.room.language = jres
              by_cases herror : jres = .error
              · rw [if_pos herror, if_pos herror]
                exact emitError_ctx h _ _ _
              rw [if_neg herror, if_neg herror]
              by_cases hstale : jres = .stale
              · rw [if_pos hstale, if_pos hstale]
                exact h _ _ _ _
              rw [if_neg hstale, if_neg hstale]
              by_cases hadvance : jres = .correct ∨ jres = .expired
              · rw [if_pos hadvance, if_pos hadvance, advance_ctx h]
                simp only [emit_ctx h, World.setPlayer, World.withCtx, Player.judged, emitEvent,
                  players_setPlayer_self]
              · rw [if_neg hadvance, if_neg hadvance]
                simp only [emit_ctx h, World.setPlayer, World.withCtx, Player.judged, emitEvent,
                  players_setPlayer_self]

theorem finishPlayer_ctx (w : World) (i : Fin maxRoomPlayers) :
    (finishPlayer emit w i).ctx = ToosType.finishPlayer w.ctx i := by
  rw [finishPlayer, ToosType.finishPlayer]
  simp only
  by_cases hplays : ((w.ctx.players i).occupied &&
      decide ((w.ctx.players i).finishStatus = .none)) = true
  · rw [if_pos hplays, if_pos hplays]
    by_cases hexpires : (w.ctx.players i).activeSentenceId ≠ 0 ∧
        (w.ctx.players i).sentenceDeadlineMs ≤ w.ctx.room.gameEndMs
    · simp only [if_pos hexpires, World.setPlayer, World.withCtx, emit_ctx h, emitEvent,
        players_setPlayer_self]
      simp [Ctx.setPlayer]
    · simp only [if_neg hexpires]
      rfl
  · rw [if_neg hplays, if_neg hplays]

theorem dealPlayer_ctx (nowMs : UInt64) (w : World) (i : Fin maxRoomPlayers) :
    (dealPlayer emit nowMs w i).ctx = ToosType.dealPlayer nowMs w.ctx i := by
  rw [dealPlayer, ToosType.dealPlayer]
  split_ifs
  · exact issueNextSentence_ctx h w i nowMs
  · rfl

theorem expirePlayer_ctx (nowMs : UInt64) (w : World) (i : Fin maxRoomPlayers) :
    (expirePlayer emit nowMs w i).ctx = ToosType.expirePlayer nowMs w.ctx i := by
  rw [expirePlayer, ToosType.expirePlayer]
  simp only
  split_ifs
  · rw [advance_ctx h]
    simp only [emit_ctx h, World.setPlayer, World.withCtx, emitEvent, players_setPlayer_self]
    rfl
  · rfl
  · rfl

omit h in
theorem foldl_ctx {f : World → Fin maxRoomPlayers → World} {g : Ctx → Fin maxRoomPlayers → Ctx}
    (hf : ∀ w i, (f w i).ctx = g w.ctx i) (is : List (Fin maxRoomPlayers)) (w : World) :
    (is.foldl f w).ctx = is.foldl g w.ctx := by
  induction is generalizing w with
  | nil => rfl
  | cons i is ih => rw [List.foldl_cons, List.foldl_cons, ih, hf]

theorem tickDeadlines_ctx (w : World) (nowMs : UInt64) :
    (tickDeadlines emit w nowMs).ctx = ToosType.tickDeadlines w.ctx nowMs := by
  rw [tickDeadlines, ToosType.tickDeadlines]
  split_ifs
  · exact foldl_ctx (expirePlayer_ctx h nowMs) slots w
  · rfl

theorem tick_ctx (w : World) (nowMs : UInt64) :
    (tick emit w nowMs).ctx = ToosType.tick w.ctx nowMs := by
  rw [tick, ToosType.tick, tickRoom]
  simp only
  generalize (if nowMs = 0 then w.ctx.lastTickMs else nowMs) = t
  cases w.ctx.room.tick t with
  | mk res room =>
      cases res with
      | none => exact tickDeadlines_ctx h _ _
      | gameStarted =>
          simp only [if_true]
          rw [tickDeadlines_ctx h, foldl_ctx (dealPlayer_ctx h t), emitRoomConfig_ctx h, h]
          rfl
      | phaseChanged =>
          simp only [if_true]
          rw [tickDeadlines_ctx h, h]
          rfl
      | gameEnded =>
          simp only [Bool.false_eq_true, if_false]
          rw [emitRoomConfig_ctx h, h, h, foldl_ctx (finishPlayer_ctx h)]
          rfl

/-- **If no send fails, the operations are those of the context alone.** -/
theorem exec_ctx (w : World) (op : Op) : (exec emit w op).ctx = op.exec w.ctx := by
  cases op with
  | join conn =>
      cases conn with
      | none => exact settle_ctx h .refl
      | some conn => exact join_ctx h w conn
  | setLanguage conn lang =>
      cases conn with
      | none => exact settle_ctx h .refl
      | some conn => exact settle_ctx h (quiet_setLanguage conn lang)
  | setDuration conn minutes =>
      cases conn with
      | none => exact settle_ctx h .refl
      | some conn => exact settle_ctx h (quiet_setDuration conn minutes)
  | setReady conn =>
      cases conn with
      | none => exact settle_ctx h .refl
      | some conn => exact settle_ctx h (quiet_setReady conn)
  | prepareStart db conn =>
      cases conn with
      | none => exact settle_ctx h .refl
      | some conn => exact settle_ctx h (quiet_prepareStart db conn)
  | abortStart => exact settle_ctx h quiet_abortStart
  | startGame conn nowMs =>
      cases conn with
      | none => exact settle_ctx h .refl
      | some conn => exact startGame_ctx h w conn nowMs
  | submit conn sentenceId input nowMs =>
      cases conn with
      | none => exact settle_ctx h .refl
      | some conn => exact submit_ctx h w conn sentenceId input nowMs
  | disconnect conn nowMs =>
      cases conn with
      | none => exact settle_ctx h .refl
      | some conn => exact disconnect_ctx h w conn nowMs
  | tick nowMs => exact tick_ctx h w nowMs

end Echo

/-- **A run on a wire without failures** is a run of the context. -/
theorem run_ctx {wire : Wire} (hwire : ∀ n, wire.fails n = false) (fuel : ℕ) (w : World)
    (ops : List Op) : (run wire fuel w (ops.map .call)).ctx = ToosType.run w.ctx ops := by
  induction ops generalizing w with
  | nil => rfl
  | cons op ops ih =>
      have hfirst := exec_ctx (echo_emitAt hwire fuel) w op
      have hrest := ih (exec (emitAt wire fuel) w op)
      rw [hfirst] at hrest
      exact hrest

end Live

end ToosType
