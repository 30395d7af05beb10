import LibCore.ToosSpawn

/-!
# ToosType: The Game

`toos_type_game_context.c`: eight slots for players around a room, its clock and its deck. The
operations are those of the function table; each returns what the source returns and the
context afterwards. The dispatcher of events does not call back into the context; `sent`
collects what it is given, in order. A context and its arguments are not `NULL`; a call with a
`NULL` connection returns `false` and does nothing (`Op.exec`).

## Main definitions

* `Player`, `Event`, `Ctx`: the context.
* `join`, `setLanguage`, `setDuration`, `setReady`, `prepareStart`, `abortStart`, `startGame`,
  `submit`, `disconnect`, `tick`: its operations.
* `Op`, `Op.exec`, `run`: calls and runs.
-/

open CString

namespace ToosType

/-- A connection that is not `NULL`. -/
abbrev Conn := ℕ

/-- `ToosTypePlayerState`. -/
structure Player where
  occupied : Bool
  playerNo : UInt32
  joinSeq : UInt64
  connected : Bool
  ready : Bool
  phaseCursor : Fin maxPhases → UInt64
  activeSentenceId : UInt64
  activePhase : UInt32
  sentenceSpawnMs : UInt64
  sentenceDeadlineMs : UInt64
  awaitingGameEnd : Bool
  correctCount : UInt32
  incorrectCount : UInt32
  expiredCount : UInt32
  phaseCorrect : Fin maxPhases → UInt32
  correctChars : UInt32
  playedMs : UInt64
  playScore : UInt32
  phaseScore : UInt32
  accuracyScore : UInt32
  accuracyX100 : UInt32
  totalScore : UInt32
  wpm : UInt32
  finishStatus : FinishStatus
  connPtr : Option Conn

/-- A slot of zeros. -/
def Player.zero : Player where
  occupied := false
  playerNo := 0
  joinSeq := 0
  connected := false
  ready := false
  phaseCursor := fun _ => 0
  activeSentenceId := 0
  activePhase := 0
  sentenceSpawnMs := 0
  sentenceDeadlineMs := 0
  awaitingGameEnd := false
  correctCount := 0
  incorrectCount := 0
  expiredCount := 0
  phaseCorrect := fun _ => 0
  correctChars := 0
  playedMs := 0
  playScore := 0
  phaseScore := 0
  accuracyScore := 0
  accuracyX100 := 0
  totalScore := 0
  wpm := 0
  finishStatus := .none
  connPtr := none

/-- `ToosTypeRankingEntry`. -/
structure RankingEntry where
  rank : UInt32
  playerNo : UInt32
  status : FinishStatus
  playedMs : UInt64
  playScore : UInt32
  phaseScore : UInt32
  accuracyScore : UInt32
  accuracyX100 : UInt32
  totalScore : UInt32
  wpm : UInt32
deriving DecidableEq

/-- The payloads of a `ToosTypeEvent`. -/
inductive Payload
  | joinAck (playerNo : UInt32) (isHost : Bool)
  | roomConfig (roomId : UInt64) (state : GameState) (lang : Language) (locked : Bool)
      (hostNo gameDurationMs : UInt32) (connectedCount readyCount : ℕ) (allReady : Bool)
  | gameState (state : GameState) (currentPhase : UInt32) (gameRemainingMs : UInt64)
  | countdown (countdownRemainingMs : UInt64)
  | phaseChanged (phase : UInt32) (phaseTimeoutMs gameRemainingMs : UInt64)
  | sentenceDrop (sentenceId : UInt64) (text : Bytes) (sentenceRemainingMs : UInt64)
  | sentenceResult (sentenceId : UInt64) (result : JudgeResult)
  | scoreUpdate (pno : UInt32) (sid : UInt64) (play phase accScore accX100 total wpm : UInt32)
  | gameOver (reason : String)
  | finalRanking (entries : List RankingEntry)
  | error (message : String)

/-- `ToosTypeEvent`; the target is `none` for an event to the whole room. -/
structure Event where
  target : Option Conn
  payload : Payload

/-- `ToosTypeGameContext`, with the events given to its dispatcher. -/
structure Ctx where
  room : Room
  spawn : SpawnEngine
  players : Fin maxRoomPlayers → Player
  activePlayerCount : UInt32
  nextJoinSeq : UInt64
  lastTickMs : UInt64
  sent : List Event

/-- The context with another player in slot `i`. -/
def Ctx.setPlayer (ctx : Ctx) (i : Fin maxRoomPlayers) (p : Player) : Ctx :=
  { ctx with players := Function.update ctx.players i p }

/-- `emit_event`. -/
def emitEvent (ctx : Ctx) (target : Option Conn) (payload : Payload) : Ctx :=
  { ctx with sent := ctx.sent ++ [⟨target, payload⟩] }

/-- `emit_error`. -/
def emitError (ctx : Ctx) (conn : Option Conn) (msg : String) : Ctx :=
  emitEvent ctx conn (.error msg)

/-- The slots in the order every loop visits them. -/
abbrev slots : List (Fin maxRoomPlayers) := List.finRange maxRoomPlayers

/-- The number of connected players. -/
def connectedCount (ctx : Ctx) : ℕ :=
  slots.countP fun i => (ctx.players i).occupied && (ctx.players i).connected

/-- The number of connected players that are ready. -/
def readyCount (ctx : Ctx) : ℕ :=
  slots.countP fun i =>
    (ctx.players i).occupied && (ctx.players i).connected && (ctx.players i).ready

/-- `emit_room_config`. -/
def emitRoomConfig (ctx : Ctx) (target : Option Conn) : Ctx :=
  emitEvent ctx target (.roomConfig ctx.room.roomId ctx.room.state ctx.room.language
    ctx.room.languageLocked ctx.room.hostPlayerNo ctx.room.totalDurationMs.toUInt32
    (connectedCount ctx) (readyCount ctx)
    (decide (connectedCount ctx ≥ minRoomPlayers ∧ connectedCount ctx = readyCount ctx)))

/-- `find_player_by_conn`: the slot of the player. -/
def findPlayerByConn (ctx : Ctx) (conn : Conn) : Option (Fin maxRoomPlayers) :=
  slots.find? fun i => (ctx.players i).occupied && decide ((ctx.players i).connPtr = some conn)

/-- The loop of `recalculate_host`: the number and the sequence number of the oldest player. -/
def hostLoop (players : Fin maxRoomPlayers → Player) :
    List (Fin maxRoomPlayers) → UInt32 × UInt64 → UInt32 × UInt64
  | [], oldest => oldest
  | i :: slots, oldest =>
      if (players i).occupied && (players i).connected then
        if (players i).joinSeq < oldest.2 then
          hostLoop players slots ((players i).playerNo, (players i).joinSeq)
        else hostLoop players slots oldest
      else hostLoop players slots oldest

/-- `recalculate_host`. -/
def recalculateHost (ctx : Ctx) : Ctx :=
  { ctx with room := { ctx.room with
    hostPlayerNo := (hostLoop ctx.players slots (0, uint64Max)).1 } }

/-- `refresh_config_lock`. -/
def refreshConfigLock (ctx : Ctx) : Ctx :=
  { ctx with room := { ctx.room with languageLocked := slots.any fun i =>
    (ctx.players i).occupied && (ctx.players i).connected && (ctx.players i).ready } }

/-- `reset_spawn_engine`. -/
def resetSpawnEngine (ctx : Ctx) : Ctx :=
  { ctx with spawn := SpawnEngine.init ctx.room.profile.randomSeed }

/-- `reset_empty_room`. -/
def resetEmptyRoom (ctx : Ctx) (nowMs : UInt64) : Ctx :=
  let ctx := resetSpawnEngine
    { ctx with players := fun _ => Player.zero, activePlayerCount := 0 }
  let room := { ctx.room with
    state := .waiting, language := .none, languageLocked := false, hostPlayerNo := 0,
    stateStartMs := nowMs, gameStartMs := 0, gameEndMs := 0, countdownEndsAtMs := 0,
    currentPhase := 0 }
  { ctx with room := (room.setDurationMinutes 3).getD room }

/-- A 64-bit score, cut at `UINT32_MAX`. -/
def saturate (v : UInt64) : UInt32 := if v > uint32Max.toUInt64 then uint32Max else v.toUInt32

/-- `update_player_stats`. -/
def updatePlayerStats (room : Room) (p : Player) (nowMs : UInt64) : Player :=
  let playedMs :=
    if p.finishStatus = .none ∧ (room.state = .playing ∨ room.state = .countdown) then
      if nowMs > room.gameStartMs then
        if nowMs - room.gameStartMs > room.gameEndMs - room.gameStartMs then
          room.gameEndMs - room.gameStartMs
        else nowMs - room.gameStartMs
      else p.playedMs
    else p.playedMs
  let playScore := saturate (playedMs * room.profile.playScorePerSec.toUInt64 / 1000)
  let attempts := p.correctCount.toUInt64 + p.incorrectCount.toUInt64 + p.expiredCount.toUInt64
  let accuracyX100 :=
    if attempts > 0 then (p.correctCount.toUInt64 * 10000 / attempts).toUInt32 else 0
  let accuracyScore :=
    saturate (accuracyX100.toUInt64 * room.profile.accuracyScoreMultiplier.toUInt64 / 100)
  let totalScore := saturate (playScore.toUInt64 + p.phaseScore.toUInt64 + accuracyScore.toUInt64)
  let wpm :=
    if playedMs > 0 then saturate (p.correctChars.toUInt64 * 12000 / playedMs) else 0
  { p with
    playedMs := playedMs, playScore := playScore, accuracyX100 := accuracyX100,
    accuracyScore := accuracyScore, totalScore := totalScore, wpm := wpm }

/-- A player without a sentence. -/
def Player.clearSentence (p : Player) : Player :=
  { p with activeSentenceId := 0, activePhase := 0, sentenceSpawnMs := 0, sentenceDeadlineMs := 0 }

/-- A player that gets no more sentences. -/
def Player.awaitEnd (p : Player) : Player := { p.clearSentence with awaitingGameEnd := true }

/-- `issue_next_sentence`, for the player in slot `i`. -/
def issueNextSentence (ctx : Ctx) (i : Fin maxRoomPlayers) (nowMs : UInt64) : Ctx :=
  let p := ctx.players i
  let nextTimeout := ctx.room.sentenceTimeoutMs nowMs
  if nowMs ≥ ctx.room.gameEndMs ∨ ctx.room.gameEndMs - nowMs < nextTimeout then
    ctx.setPlayer i p.awaitEnd
  else
    let phase := ctx.room.phaseAt nowMs
    match Room.phaseIndex phase with
    | none => (emitError ctx p.connPtr "ERROR_INVALID_PHASE").setPlayer i p.awaitEnd
    | some k =>
        let cursor := p.phaseCursor k
        match ctx.spawn.ensureCursor phase cursor with
        | (false, spawn) =>
            (emitError { ctx with spawn := spawn } p.connPtr "ERROR_SPAWN_CURSOR_FAILED").setPlayer i
              p.awaitEnd
        | (true, spawn) =>
            let ctx := { ctx with spawn := spawn }
            match spawn.sentenceAt phase cursor with
            | some sent =>
                let p := { p with
                  activeSentenceId := sent.id, activePhase := phase, sentenceSpawnMs := nowMs,
                  sentenceDeadlineMs := nowMs + nextTimeout }
                emitEvent (ctx.setPlayer i p) p.connPtr (.sentenceDrop sent.id
                  (if ctx.room.language = .en then sent.enText else sent.koText) nextTimeout)
            | none => ctx.setPlayer i p.awaitEnd

/-- `ToosTypeGameContext_init`. -/
def Ctx.init (roomId : UInt64) (profile : Profile) : Ctx where
  room := Room.init roomId profile
  spawn := SpawnEngine.init profile.randomSeed
  players := fun _ => Player.zero
  activePlayerCount := 0
  nextJoinSeq := 1
  lastTickMs := 0
  sent := []

/-- `ToosTypeGameContext_join`. -/
def join (ctx : Ctx) (conn : Conn) : Bool × Ctx :=
  if ctx.room.state ≠ .waiting then
    (false, emitError ctx (some conn) "ERROR_GAME_ALREADY_STARTED")
  else if (findPlayerByConn ctx conn).isSome then
    (false, emitError ctx (some conn) "ERROR_ALREADY_JOINED")
  else
    match slots.find? fun i => !(ctx.players i).occupied with
    | none => (false, emitError ctx (some conn) "ERROR_ROOM_FULL")
    | some i =>
        let p := { Player.zero with
          occupied := true, playerNo := UInt32.ofNat (i + 1), joinSeq := ctx.nextJoinSeq,
          connected := true, ready := false, connPtr := some conn }
        let ctx := recalculateHost
          { ctx.setPlayer i p with
            nextJoinSeq := ctx.nextJoinSeq + 1, activePlayerCount := ctx.activePlayerCount + 1 }
        let ctx := emitEvent ctx (some conn)
          (.joinAck p.playerNo (decide (p.playerNo = ctx.room.hostPlayerNo)))
        (true, emitRoomConfig ctx none)

/-- Whether a connection belongs to the host. -/
def isHost (ctx : Ctx) (conn : Conn) : Bool :=
  (findPlayerByConn ctx conn).any fun i =>
    decide ((ctx.players i).playerNo = ctx.room.hostPlayerNo)

/-- `ToosTypeGameContext_set_language`. -/
def setLanguage (ctx : Ctx) (conn : Conn) (lang : Language) : Bool × Ctx :=
  if ctx.room.state ≠ .waiting then
    (false, emitError ctx (some conn) "ERROR_GAME_ALREADY_STARTED")
  else if ctx.room.languageLocked then (false, emitError ctx (some conn) "ERROR_LANGUAGE_LOCKED")
  else if !isHost ctx conn then (false, emitError ctx (some conn) "ERROR_NOT_HOST")
  else if lang ≠ .en ∧ lang ≠ .ko then
    (false, emitError ctx (some conn) "ERROR_INVALID_LANGUAGE")
  else (true, emitRoomConfig { ctx with room := { ctx.room with language := lang } } none)

/-- `ToosTypeGameContext_set_duration`. -/
def setDuration (ctx : Ctx) (conn : Conn) (minutes : UInt32) : Bool × Ctx :=
  if ctx.room.state ≠ .waiting then
    (false, emitError ctx (some conn) "ERROR_GAME_ALREADY_STARTED")
  else if !isHost ctx conn then (false, emitError ctx (some conn) "ERROR_NOT_HOST")
  else if ctx.room.languageLocked then (false, emitError ctx (some conn) "ERROR_CONFIG_LOCKED")
  else if slots.any fun i =>
      (ctx.players i).occupied && (ctx.players i).connected && (ctx.players i).ready then
    (false, emitError ctx (some conn) "ERROR_CANNOT_CHANGE_WHILE_READY")
  else
    match ctx.room.setDurationMinutes minutes with
    | none => (false, emitError ctx (some conn) "ERROR_INVALID_DURATION")
    | some room => (true, emitRoomConfig { ctx with room := room } none)

/-- `ToosTypeGameContext_set_ready`. -/
def setReady (ctx : Ctx) (conn : Conn) : Bool × Ctx :=
  if ctx.room.state ≠ .waiting then (false, ctx)
  else if ctx.room.language = .none then
    (false, emitError ctx (some conn) "ERROR_LANGUAGE_NOT_SELECTED")
  else
    match findPlayerByConn ctx conn with
    | none => (false, ctx)
    | some i =>
        let ctx := { ctx with room := { ctx.room with languageLocked := true } }
        (true, emitRoomConfig (ctx.setPlayer i { ctx.players i with ready := true }) none)

/-- `ToosTypeGameContext_prepare_start`. -/
def prepareStart (ctx : Ctx) (db : Repository) (conn : Conn) : Bool × Ctx :=
  if ctx.room.state ≠ .waiting then (false, emitError ctx (some conn) "ERROR_NOT_WAITING")
  else if !isHost ctx conn then (false, emitError ctx (some conn) "ERROR_NOT_HOST")
  else if ctx.room.language ≠ .en ∧ ctx.room.language ≠ .ko then
    (false, emitError ctx (some conn) "ERROR_LANGUAGE_NOT_SELECTED")
  else if connectedCount ctx < minRoomPlayers ∨ readyCount ctx ≠ connectedCount ctx then
    (false, emitError ctx (some conn) "ERROR_NOT_ALL_READY_OR_NOT_ENOUGH_PLAYERS")
  else if ctx.spawn.loaded then (false, emitError ctx (some conn) "ERROR_START_ALREADY_PREPARED")
  else
    match ctx.spawn.buildDeck db ctx.room.language with
    | none => (false, emitError ctx (some conn) "ERROR_DECK_BUILD_FAILED")
    | some spawn => (true, { ctx with spawn := spawn })

/-- `ToosTypeGameContext_abort_start`. -/
def abortStart (ctx : Ctx) : Ctx :=
  if ctx.room.state = .waiting ∧ ctx.spawn.loaded then resetSpawnEngine ctx else ctx

/-- `ToosTypeGameContext_start_game`. -/
def startGame (ctx : Ctx) (conn : Conn) (nowMs : UInt64) : Bool × Ctx :=
  if nowMs = 0 then (false, ctx)
  else if ctx.room.state ≠ .waiting then (false, emitError ctx (some conn) "ERROR_NOT_WAITING")
  else if !isHost ctx conn then
    (false, emitError (if ctx.spawn.loaded then resetSpawnEngine ctx else ctx) (some conn)
      "ERROR_NOT_HOST")
  else if connectedCount ctx < minRoomPlayers ∨ readyCount ctx ≠ connectedCount ctx then
    (false, emitError (if ctx.spawn.loaded then resetSpawnEngine ctx else ctx) (some conn)
      "ERROR_NOT_ALL_READY_OR_NOT_ENOUGH_PLAYERS")
  else if !ctx.spawn.loaded then (false, emitError ctx (some conn) "ERROR_START_NOT_PREPARED")
  else
    match ctx.room.startCountdown nowMs with
    | none =>
        (false, emitError (resetSpawnEngine ctx) (some conn) "ERROR_START_COUNTDOWN_FAILED")
    | some room =>
        let ctx := emitEvent { ctx with room := room } none (.countdown
          (if room.countdownEndsAtMs > nowMs then room.countdownEndsAtMs - nowMs else 0))
        (true, emitRoomConfig ctx none)

/-- The score event of a player. -/
def scoreUpdate (p : Player) (sentenceId : UInt64) : Payload :=
  .scoreUpdate p.playerNo sentenceId p.playScore p.phaseScore p.accuracyScore p.accuracyX100
    p.totalScore p.wpm

/-- The cursor of the active phase moves on. -/
def Player.advanceCursor (p : Player) : Player :=
  match Room.phaseIndex p.activePhase with
  | none => p
  | some k => { p with phaseCursor := Function.update p.phaseCursor k (p.phaseCursor k + 1) }

/-- The counters after a judgement. -/
def Player.credit (p : Player) (room : Room) (k : Fin maxPhases) (input : Bytes) :
    JudgeResult → Player
  | .correct =>
      { p with
        correctCount := p.correctCount + 1
        phaseCorrect := Function.update p.phaseCorrect k (p.phaseCorrect k + 1)
        phaseScore := p.phaseScore + (room.profile.phases k).correctScore
        correctChars := p.correctChars + countChars input room.language }
  | .incorrect => { p with incorrectCount := p.incorrectCount + 1 }
  | .expired => { p with expiredCount := p.expiredCount + 1 }
  | _ => p

/-- `ToosTypeGameContext_submit`, on the `len` bytes at `input`. -/
def submit (ctx : Ctx) (conn : Conn) (sentenceId : UInt64) (input : Bytes) (nowMs : UInt64) :
    Bool × Ctx :=
  if ctx.room.state ≠ .playing then (false, ctx)
  else
    let nowMs := if nowMs = 0 then ctx.lastTickMs else nowMs
    match findPlayerByConn ctx conn with
    | none => (false, ctx)
    | some i =>
        let p := ctx.players i
        if !p.connected ∨ p.finishStatus ≠ .none then (false, ctx)
        else if p.awaitingGameEnd ∨ p.activeSentenceId = 0 then
          (true, emitEvent ctx (some conn) (.sentenceResult sentenceId .stale))
        else
          match Room.phaseIndex p.activePhase with
          | none => (false, emitError ctx (some conn) "ERROR_INVALID_ACTIVE_PHASE")
          | some k =>
              match ctx.spawn.sentenceAt p.activePhase (p.phaseCursor k) with
              | none => (false, ctx)
              | some target =>
                  let jres := judgeSubmit target p.activeSentenceId sentenceId input nowMs
                    p.sentenceDeadlineMs ctx.room.language
                  if jres = .error then (false, emitError ctx (some conn) "JUDGE_INTERNAL_ERROR")
                  else if jres = .stale then
                    (true, emitEvent ctx (some conn) (.sentenceResult sentenceId .stale))
                  else
                    let p := updatePlayerStats ctx.room (p.credit ctx.room k input jres) nowMs
                    let ctx := ctx.setPlayer i p
                    let ctx := emitEvent ctx (some conn) (.sentenceResult sentenceId jres)
                    let ctx := emitEvent ctx (some conn) (scoreUpdate p sentenceId)
                    if jres = .correct ∨ jres = .expired then
                      (true, issueNextSentence (ctx.setPlayer i p.advanceCursor) i nowMs)
                    else (true, ctx)

/-- A disconnect while the room waits or counts down: the slot is freed. -/
def leave (ctx : Ctx) (i : Fin maxRoomPlayers) : Ctx :=
  recalculateHost
    { ctx.setPlayer i Player.zero with
      activePlayerCount :=
        if ctx.activePlayerCount > 0 then ctx.activePlayerCount - 1 else ctx.activePlayerCount }

/-- A disconnect during or after the game: the player stays in the slot, with what was played. -/
def dropOut (ctx : Ctx) (i : Fin maxRoomPlayers) (nowMs : UInt64) : Ctx :=
  let p := { ctx.players i with connected := false, connPtr := none }
  if p.finishStatus = .none then
    let endMs := if nowMs > ctx.room.gameEndMs then ctx.room.gameEndMs else nowMs
    let p := { p with
      playedMs := if endMs > ctx.room.gameStartMs then endMs - ctx.room.gameStartMs else 0
      finishStatus := .dnf }
    ctx.setPlayer i (updatePlayerStats ctx.room p nowMs)
  else ctx.setPlayer i p

/-- `ToosTypeGameContext_disconnect`. -/
def disconnect (ctx : Ctx) (conn : Conn) (nowMs : UInt64) : Bool × Ctx :=
  let nowMs := if nowMs = 0 then ctx.lastTickMs else nowMs
  match findPlayerByConn ctx conn with
  | none => (false, ctx)
  | some i =>
      if ctx.room.state = .countdown then
        let ctx := leave ctx i
        let ctx := { ctx with room := ctx.room.cancelCountdown nowMs }
        if ctx.activePlayerCount = 0 then (true, resetEmptyRoom ctx nowMs)
        else
          let ctx := refreshConfigLock (resetSpawnEngine ctx)
          (true, emitRoomConfig (emitEvent ctx none (.gameState .waiting 0 0)) none)
      else if ctx.room.state = .waiting then
        let ctx := leave ctx i
        if ctx.activePlayerCount = 0 then (true, resetEmptyRoom ctx nowMs)
        else (true, emitRoomConfig (refreshConfigLock ctx) none)
      else
        let ctx := dropOut ctx i nowMs
        if slots.any fun i => (ctx.players i).occupied && (ctx.players i).connected then (true, ctx)
        else (true, resetEmptyRoom ctx nowMs)

/-! ### The ranking -/

/-- Whether the sort exchanges an earlier entry with a later one. -/
def rankSwap (e1 e2 : RankingEntry) : Bool :=
  let byTail :=
    if e2.accuracyX100 > e1.accuracyX100 then true
    else if e2.accuracyX100 = e1.accuracyX100 then
      if e2.phaseScore > e1.phaseScore then true
      else if e2.phaseScore = e1.phaseScore then
        if e2.wpm > e1.wpm then true else decide (e2.wpm = e1.wpm ∧ e2.playerNo < e1.playerNo)
      else false
    else false
  if e1.status = .dnf ∧ e2.status = .finished then true
  else if e1.status = .finished ∧ e2.status = .finished then
    if e2.totalScore > e1.totalScore then true
    else if e2.totalScore = e1.totalScore then byTail
    else false
  else if e1.status = .dnf ∧ e2.status = .dnf then
    if e2.totalScore > e1.totalScore then true
    else if e2.totalScore = e1.totalScore then
      if e2.playedMs > e1.playedMs then true
      else if e2.playedMs = e1.playedMs then byTail
      else false
    else false
  else false

/-- The inner loop of the sort: the entry at the front is exchanged with later ones. -/
def exchangeLoop : RankingEntry → List RankingEntry → RankingEntry × List RankingEntry
  | e, [] => (e, [])
  | e, x :: xs =>
      if rankSwap e x then
        let (front, rest) := exchangeLoop x xs
        (front, e :: rest)
      else
        let (front, rest) := exchangeLoop e xs
        (front, x :: rest)

/-- The outer loop of the sort, for at most `n` entries. -/
def sortLoop : ℕ → List RankingEntry → List RankingEntry
  | 0, es => es
  | _ + 1, [] => []
  | n + 1, e :: es =>
      let (front, rest) := exchangeLoop e es
      front :: sortLoop n rest

/-- Whether an entry shares the rank of the one before it. -/
def sameRank (prev curr : RankingEntry) : Bool :=
  decide (curr.status = prev.status ∧ curr.totalScore = prev.totalScore ∧
    (curr.status = .finished ∨ curr.playedMs = prev.playedMs) ∧
    curr.accuracyX100 = prev.accuracyX100 ∧ curr.phaseScore = prev.phaseScore ∧
    curr.wpm = prev.wpm)

/-- The loop that numbers the entries from index `i` on. -/
def rankLoop : ℕ → RankingEntry → List RankingEntry → List RankingEntry
  | _, _, [] => []
  | i, prev, e :: es =>
      let e := { e with rank := if sameRank prev e then prev.rank else UInt32.ofNat (i + 1) }
      e :: rankLoop (i + 1) e es

/-- The entries with their ranks. -/
def assignRanks : List RankingEntry → List RankingEntry
  | [] => []
  | e :: es => { e with rank := 1 } :: rankLoop 1 { e with rank := 1 } es

/-- The entry of a player. -/
def rankingEntry (p : Player) : RankingEntry :=
  ⟨0, p.playerNo, p.finishStatus, p.playedMs, p.playScore, p.phaseScore, p.accuracyScore,
    p.accuracyX100, p.totalScore, p.wpm⟩

/-- The final ranking. -/
def finalRanking (players : Fin maxRoomPlayers → Player) : List RankingEntry :=
  let entries := (slots.filter fun i => (players i).occupied).map fun i => rankingEntry (players i)
  assignRanks (sortLoop entries.length entries)

/-! ### Ticks -/

/-- The end of the game for the player in slot `i`. -/
def finishPlayer (ctx : Ctx) (i : Fin maxRoomPlayers) : Ctx :=
  let p := ctx.players i
  if p.occupied && decide (p.finishStatus = .none) then
    let expires := p.activeSentenceId ≠ 0 ∧ p.sentenceDeadlineMs ≤ ctx.room.gameEndMs
    let p' := if expires then { p.clearSentence with expiredCount := p.expiredCount + 1 } else p
    let ctx := if expires then
        emitEvent ctx p.connPtr (.sentenceResult p.activeSentenceId .expired)
      else ctx
    let p' := { p' with
      playedMs := ctx.room.gameEndMs - ctx.room.gameStartMs, finishStatus := .finished }
    ctx.setPlayer i (updatePlayerStats ctx.room p' ctx.room.gameEndMs)
  else ctx

/-- The first sentence for the player in slot `i`. -/
def dealPlayer (nowMs : UInt64) (ctx : Ctx) (i : Fin maxRoomPlayers) : Ctx :=
  if (ctx.players i).occupied && (ctx.players i).connected then issueNextSentence ctx i nowMs
  else ctx

/-- The deadline of the player in slot `i`. -/
def expirePlayer (nowMs : UInt64) (ctx : Ctx) (i : Fin maxRoomPlayers) : Ctx :=
  let p := ctx.players i
  if p.occupied && p.connected && decide (p.finishStatus = .none) then
    if p.activeSentenceId ≠ 0 ∧ nowMs ≥ p.sentenceDeadlineMs then
      let expiredSid := p.activeSentenceId
      let p := updatePlayerStats ctx.room { p with expiredCount := p.expiredCount + 1 } nowMs
      let ctx := ctx.setPlayer i p
      let ctx := emitEvent ctx p.connPtr (.sentenceResult expiredSid .expired)
      let ctx := emitEvent ctx p.connPtr (scoreUpdate p expiredSid)
      issueNextSentence (ctx.setPlayer i p.advanceCursor) i nowMs
    else ctx
  else ctx

/-- What is left of the game at a time. -/
def gameRemainingMs (room : Room) (nowMs : UInt64) : UInt64 :=
  if room.gameEndMs > nowMs then room.gameEndMs - nowMs else 0

/-- The last part of a tick: the deadlines of a running game. -/
def tickDeadlines (ctx : Ctx) (nowMs : UInt64) : Ctx :=
  if ctx.room.state = .playing then slots.foldl (expirePlayer nowMs) ctx else ctx

/-- `ToosTypeGameContext_tick`. -/
def tick (ctx : Ctx) (nowMs : UInt64) : Ctx :=
  let nowMs := if nowMs = 0 then ctx.lastTickMs else nowMs
  let (res, room) := ctx.room.tick nowMs
  let ctx := { ctx with lastTickMs := nowMs, room := room }
  match res with
  | .gameStarted =>
      let ctx := emitEvent ctx none (.gameState .playing room.currentPhase
        (gameRemainingMs room nowMs))
      let ctx := emitRoomConfig ctx none
      tickDeadlines (slots.foldl (dealPlayer nowMs) ctx) nowMs
  | .phaseChanged =>
      tickDeadlines (emitEvent ctx none (.phaseChanged room.currentPhase
        (room.sentenceTimeoutMs nowMs) (gameRemainingMs room nowMs))) nowMs
  | .gameEnded =>
      let ctx := slots.foldl finishPlayer ctx
      let ranking := finalRanking ctx.players
      let ctx := emitEvent ctx none (.gameOver "NORMAL_END")
      let ctx := emitEvent ctx none (.finalRanking ranking)
      emitRoomConfig ctx none
  | .none => tickDeadlines ctx nowMs

/-! ### Runs -/

/-- A call of an operation. A connection is `none` for `NULL`. -/
inductive Op
  | join (conn : Option Conn)
  | setLanguage (conn : Option Conn) (lang : Language)
  | setDuration (conn : Option Conn) (minutes : UInt32)
  | setReady (conn : Option Conn)
  | prepareStart (db : Repository) (conn : Option Conn)
  | abortStart
  | startGame (conn : Option Conn) (nowMs : UInt64)
  | submit (conn : Option Conn) (sentenceId : UInt64) (input : Bytes) (nowMs : UInt64)
  | disconnect (conn : Option Conn) (nowMs : UInt64)
  | tick (nowMs : UInt64)

/-- The context after a call. -/
def Op.exec (ctx : Ctx) : Op → Ctx
  | .join (some conn) => (ToosType.join ctx conn).2
  | .setLanguage (some conn) lang => (ToosType.setLanguage ctx conn lang).2
  | .setDuration (some conn) minutes => (ToosType.setDuration ctx conn minutes).2
  | .setReady (some conn) => (ToosType.setReady ctx conn).2
  | .prepareStart db (some conn) => (ToosType.prepareStart ctx db conn).2
  | .abortStart => ToosType.abortStart ctx
  | .startGame (some conn) nowMs => (ToosType.startGame ctx conn nowMs).2
  | .submit (some conn) sentenceId input nowMs =>
      (ToosType.submit ctx conn sentenceId input nowMs).2
  | .disconnect (some conn) nowMs => (ToosType.disconnect ctx conn nowMs).2
  | .tick nowMs => ToosType.tick ctx nowMs
  | _ => ctx

/-- A run of calls. -/
def run (ctx : Ctx) (ops : List Op) : Ctx := ops.foldl Op.exec ctx

end ToosType
