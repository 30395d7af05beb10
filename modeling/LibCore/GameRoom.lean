import LibCore.PixelBoard

/-!
# The Pixel Game Room

`game_room.c`: two teams paint on one board until a timer ends the game. A room has 64 slots for
sessions, a generation that stamps the packets of one game, and a cooldown for each slot. No
callback is registered for the end of a game. What lies outside the room, the memory allocator
and the timers of the event loop, can refuse; each call that depends on them says what they
answer (`Env`).

## Main definitions

* `Room`: the state of a room.
* `assignPlayer`, `removePlayer`, `reset`, `start`, `paint`, `checkGameOver`, `triggerTimeOver`:
  its operations.
* `Op`, `Op.exec`, `run`: calls and runs.

## Main results

* `exec_step`: every call is a `Step`, which says what calls can do to a room.
* `board_accounting`: the scores and the version of the board over runs.
-/

namespace PixelWar

/-- `MAX_PLAYERS`. -/
abbrev maxPlayers : ℕ := 64

/-- `COOLDOWN_MS`. -/
def cooldownMs : UInt64 := 100

/-- `MAX_BRUSH_SIZE`. -/
def maxBrushSize : UInt16 := 50

/-- `LONG_MAX`. -/
def longMax : UInt64 := 0x7FFFFFFFFFFFFFFF

/-- `UINT64_MAX`. -/
def uint64Max : UInt64 := 0xFFFFFFFFFFFFFFFF

/-- `RoomState`. -/
inductive RoomState
  | waiting
  | running
  | finished
deriving DecidableEq

/-- `GameRoomPaintResult`. -/
inductive PaintResult
  | changed
  | unchanged
  | cooldown
  | error
  | timeOver
  | staleGeneration
deriving DecidableEq

/-- `GameRoomRemoveResult`. -/
inductive RemoveResult
  | error
  | ok
  | autoResetFailed
deriving DecidableEq

/-- The answers of the allocator and of the event loop during a call. -/
structure Env where
  boardAllocated : Bool
  timerAllocated : Bool
  timerAdded : Bool
  timerRemoved : Bool

/-- `GameRoom`; `gameTimer` says whether there is a timer. -/
structure Room where
  roomId : UInt64
  board : Board
  generation : UInt64
  state : RoomState
  brushSize : UInt16
  durationMs : UInt64
  endsAtMs : UInt64
  gameTimer : Bool
  initializerSession : UInt64
  configuredBrushSize : UInt16
  configuredDurationMs : UInt64
  playerSessions : Fin maxPlayers → UInt64
  playerTeams : Fin maxPlayers → Team
  cooldownUntil : Fin maxPlayers → UInt64

/-- The slots in the order every loop visits them. -/
abbrev slots : List (Fin maxPlayers) := List.finRange maxPlayers

/-- The slot of an index. -/
def slotOf (playerIdx : UInt8) : Option (Fin maxPlayers) :=
  if h : playerIdx.toNat < maxPlayers then some ⟨playerIdx.toNat, h⟩ else none

/-- `new_GameRoom`, when its allocations succeed. -/
def newGameRoom (roomId : UInt64) (w h : UInt16) : Option Room :=
  (Board.new w h).map fun board =>
    { roomId := roomId
      board := board
      generation := 1
      state := .waiting
      brushSize := 0
      durationMs := 0
      endsAtMs := 0
      gameTimer := false
      initializerSession := 0
      configuredBrushSize := 5
      configuredDurationMs := 180000
      playerSessions := fun _ => 0
      playerTeams := fun _ => .empty
      cooldownUntil := fun _ => 0 }

namespace Room

/-- `GameRoom_detach_timer`: `none` for `false`. -/
def detachTimer (room : Room) (env : Env) : Option Room :=
  if !room.gameTimer then some room
  else if env.timerRemoved then some { room with gameTimer := false }
  else none

/-- The board after a reset to a size: `none` if a new one cannot be made. -/
def resetBoard (board : Board) (env : Env) (w h : UInt16) : Option Board :=
  if board.width ≠ w ∨ board.height ≠ h then
    if env.boardAllocated then Board.new w h else none
  else some board.clear

/-- `_GameRoom_force_reset`: `none` for `false`, which leaves the room alone. -/
def forceReset (room : Room) (env : Env) (w h brush : UInt16) (durationMs : UInt64) :
    Option Room :=
  if w = 0 ∨ h = 0 then none
  else
    match resetBoard room.board env w h with
    | none => none
    | some board =>
        match room.detachTimer env with
        | none => none
        | some room =>
            some { room with
              board := board
              generation := room.generation + 1
              brushSize := 0
              durationMs := 0
              endsAtMs := 0
              configuredBrushSize := brush
              configuredDurationMs := durationMs
              cooldownUntil := fun _ => 0
              state := .waiting }

/-- The number of players of a team, apart from one session. -/
def teamCount (room : Room) (apart : UInt64) (team : Team) : ℕ :=
  slots.countP fun i => decide (room.playerSessions i ≠ 0 ∧ room.playerSessions i ≠ apart ∧
    room.playerTeams i = team)

/-- `GameRoom_assign_player`: the slot and whether the session may reset, and the room. -/
def assignPlayer (room : Room) (userId : UInt64) (reqTeam : Team) :
    Option (Fin maxPlayers × Bool) × Room :=
  if userId = 0 ∨ (reqTeam ≠ .red ∧ reqTeam ≠ .blue) then (none, room)
  else if room.state ≠ .waiting then (none, room)
  else if reqTeam = .red ∧ room.teamCount userId .red ≥ 3 then (none, room)
  else if reqTeam = .blue ∧ room.teamCount userId .blue ≥ 3 then (none, room)
  else
    let room := if room.initializerSession = 0 then { room with initializerSession := userId }
      else room
    let canReset := decide (room.initializerSession = userId)
    match slots.find? fun i => decide (room.playerSessions i = userId) with
    | some i =>
        (some (i, canReset), { room with playerTeams := Function.update room.playerTeams i reqTeam })
    | none =>
        match slots.find? fun i => decide (room.playerSessions i = 0) with
        | some i =>
            (some (i, canReset), { room with
              playerSessions := Function.update room.playerSessions i userId
              playerTeams := Function.update room.playerTeams i reqTeam
              cooldownUntil := Function.update room.cooldownUntil i 0 })
        | none => (none, room)

/-- The room without the player in slot `i`. -/
def vacate (room : Room) (i : Fin maxPlayers) : Room :=
  { room with
    playerSessions := Function.update room.playerSessions i 0
    playerTeams := Function.update room.playerTeams i .empty
    cooldownUntil := Function.update room.cooldownUntil i 0 }

/-- `GameRoom_remove_player`. -/
def removePlayer (room : Room) (env : Env) (playerIdx : UInt8) : RemoveResult × Room :=
  match slotOf playerIdx with
  | none => (.error, room)
  | some i =>
      if room.playerSessions i = 0 then (.error, room)
      else
        let room := room.vacate i
        if slots.all fun i => decide (room.playerSessions i = 0) then
          if room.state ≠ .waiting then
            match room.forceReset env room.board.width room.board.height
                room.configuredBrushSize room.configuredDurationMs with
            | none => (.autoResetFailed, room)
            | some room => (.ok, { room with initializerSession := 0 })
          else (.ok, { room with initializerSession := 0 })
        else (.ok, room)

/-- `GameRoom_can_start`. The session `0` is nobody's. -/
def canStart (room : Room) : Bool :=
  decide (room.state = .waiting ∧ room.teamCount 0 .red ≥ 1 ∧ room.teamCount 0 .blue ≥ 1)

/-- `GameRoom_reset`: `none` for `false`. -/
def reset (room : Room) (env : Env) (requesterSession : UInt64) (w h brush : UInt16)
    (durationMs : UInt64) : Option Room :=
  if w = 0 ∨ h = 0 ∨ brush = 0 ∨ durationMs = 0 then none
  else if room.state = .running then none
  else if requesterSession = 0 ∨ requesterSession ≠ room.initializerSession then none
  else room.forceReset env w h brush durationMs

/-- `GameRoom_start`: `none` for `false`. -/
def start (room : Room) (env : Env) (nowMs : UInt64) : Option Room :=
  let brush := room.configuredBrushSize
  let durMs := room.configuredDurationMs
  if !room.canStart then none
  else if room.gameTimer then none
  else if brush = 0 ∨ brush > maxBrushSize ∨ durMs = 0 then none
  else if durMs > longMax then none
  else if durMs > uint64Max - nowMs then none
  else if !env.timerAllocated then none
  else if !env.timerAdded then none
  else
    some { room with
      gameTimer := true
      cooldownUntil := fun _ => 0
      brushSize := brush
      durationMs := durMs
      endsAtMs := nowMs + durMs
      state := .running }

/-- `GameRoom_trigger_time_over`. -/
def triggerTimeOver (room : Room) : Room :=
  if room.state ≠ .running then room else { room with state := .finished }

/-- `GameRoom_check_game_over`. -/
def checkGameOver (room : Room) (nowMs : UInt64) : Room :=
  if room.state ≠ .running then room
  else if nowMs ≥ room.endsAtMs then room.triggerTimeOver
  else room

/-- The places of a brush around a pixel, in the order of the two loops. -/
def brushCells (brushSize x y : UInt16) : List (ℤ × ℤ) :=
  let bs := brushSize.toNat
  let offset : ℤ := bs / 2
  (List.range bs).flatMap fun dy => (List.range bs).map fun dx =>
    ((x.toNat : ℤ) - offset + dx, (y.toNat : ℤ) - offset + dy)

/-- One round of the inner loop: whether a pixel has changed so far, and the board. -/
def paintCell (team : Team) (acc : Bool × Board) (cell : ℤ × ℤ) : Bool × Board :=
  if 0 ≤ cell.1 ∧ cell.1 < acc.2.width.toNat ∧ 0 ≤ cell.2 ∧ cell.2 < acc.2.height.toNat then
    let res := acc.2.paint (UInt16.ofNat cell.1.toNat) (UInt16.ofNat cell.2.toNat) team
    (acc.1 || decide (res.1 = .changed), res.2)
  else acc

/-- `GameRoom_paint`. -/
def paint (room : Room) (playerIdx : UInt8) (reqGeneration : UInt64) (x y : UInt16)
    (nowMs : UInt64) : PaintResult × Room :=
  match slotOf playerIdx with
  | none => (.error, room)
  | some i =>
      if reqGeneration ≠ room.generation then (.staleGeneration, room)
      else if room.playerSessions i = 0 then (.error, room)
      else if x ≥ room.board.width ∨ y ≥ room.board.height then (.error, room)
      else
        let room := room.checkGameOver nowMs
        if room.state ≠ .running then (.timeOver, room)
        else if nowMs < room.cooldownUntil i then (.cooldown, room)
        else
          let room := { room with
            cooldownUntil := Function.update room.cooldownUntil i (nowMs + cooldownMs) }
          let (paintedAny, board) := (brushCells room.brushSize x y).foldl
            (paintCell (room.playerTeams i)) (false, room.board)
          (if paintedAny then .changed else .unchanged, { room with board := board })

end Room

/-! ### Runs -/

/-- A call of an operation, or the end of the timer. -/
inductive Op
  | assignPlayer (userId : UInt64) (reqTeam : Team)
  | removePlayer (env : Env) (playerIdx : UInt8)
  | reset (env : Env) (requesterSession : UInt64) (w h brush : UInt16) (durationMs : UInt64)
  | start (env : Env) (nowMs : UInt64)
  | paint (playerIdx : UInt8) (reqGeneration : UInt64) (x y : UInt16) (nowMs : UInt64)
  | checkGameOver (nowMs : UInt64)
  | timerExpired

/-- The room after a call. -/
def Op.exec (room : Room) : Op → Room
  | .assignPlayer userId reqTeam => (room.assignPlayer userId reqTeam).2
  | .removePlayer env playerIdx => (room.removePlayer env playerIdx).2
  | .reset env requester w h brush durationMs =>
      (room.reset env requester w h brush durationMs).getD room
  | .start env nowMs => (room.start env nowMs).getD room
  | .paint playerIdx reqGeneration x y nowMs => (room.paint playerIdx reqGeneration x y nowMs).2
  | .checkGameOver nowMs => room.checkGameOver nowMs
  | .timerExpired => room.triggerTimeOver

/-- A run of calls. -/
def run (room : Room) (ops : List Op) : Room := ops.foldl Op.exec room

/-! ### What a call can do -/

/-- The room after a reset. -/
def Room.renew (room : Room) (board : Board) (brush : UInt16) (durationMs : UInt64) : Room :=
  { room with
    board := board
    generation := room.generation + 1
    brushSize := 0
    durationMs := 0
    endsAtMs := 0
    gameTimer := false
    configuredBrushSize := brush
    configuredDurationMs := durationMs
    cooldownUntil := fun _ => 0
    state := .waiting }

/-- A board is cleared, or replaced by one of another size. -/
def Renewed (b b' : Board) : Prop :=
  b' = b.clear ∨ ∃ w h, (b.width ≠ w ∨ b.height ≠ h) ∧ Board.new w h = some b'

/-- The automatic reset of `GameRoom_remove_player`. -/
def Room.autoReset (room : Room) (env : Env) : Option Room :=
  room.forceReset env room.board.width room.board.height room.configuredBrushSize
    room.configuredDurationMs

/-- Whether a call resets the room: a reset that succeeds, or the last player leaving a game. -/
def Op.resets (room : Room) : Op → Bool
  | .reset env requester w h brush durationMs =>
      (room.reset env requester w h brush durationMs).isSome
  | .removePlayer env playerIdx =>
      match slotOf playerIdx with
      | none => false
      | some i =>
          decide (room.playerSessions i ≠ 0) &&
            (slots.all fun j => decide ((room.vacate i).playerSessions j = 0)) &&
            decide ((room.vacate i).state ≠ .waiting) && ((room.vacate i).autoReset env).isSome
  | _ => false

/-- What a call can do to a room; the flag says whether it resets the room. -/
inductive Step (room : Room) : Bool → Room → Prop
  | idle : Step room false room
  /-- The first session that asks for a slot may reset the room. -/
  | claim (userId : UInt64) : Step room false { room with initializerSession := userId }
  /-- A session takes a slot, or changes the team in its own. -/
  | seat (i : Fin maxPlayers) (userId : UInt64) (team : Team) (initializer : UInt64)
      (cooldown : Fin maxPlayers → UInt64) (hstate : room.state = .waiting) (huser : userId ≠ 0)
      (hteam : team = .red ∨ team = .blue) (hcount : room.teamCount userId team < 3)
      (hslot : room.playerSessions i = userId ∨
        room.playerSessions i = 0 ∧ ∀ j, room.playerSessions j ≠ userId) :
      Step room false { room with
        initializerSession := initializer
        playerSessions := Function.update room.playerSessions i userId
        playerTeams := Function.update room.playerTeams i team
        cooldownUntil := cooldown }
  | vacate (i : Fin maxPlayers) (initializer : UInt64) (hslot : room.playerSessions i ≠ 0) :
      Step room false { room.vacate i with initializerSession := initializer }
  /-- The last player has left, and the room starts again. -/
  | vacateRenew (i : Fin maxPlayers) (initializer : UInt64) (board : Board) (brush : UInt16)
      (durationMs : UInt64) (hslot : room.playerSessions i ≠ 0)
      (hboard : Renewed room.board board) :
      Step room true { (room.vacate i).renew board brush durationMs with
        initializerSession := initializer }
  | renew (board : Board) (brush : UInt16) (durationMs : UInt64) (hstate : room.state ≠ .running)
      (hboard : Renewed room.board board) : Step room true (room.renew board brush durationMs)
  | start (nowMs : UInt64) (hstate : room.state = .waiting) (hred : room.teamCount 0 .red ≥ 1)
      (hblue : room.teamCount 0 .blue ≥ 1) :
      Step room false { room with
        gameTimer := true
        cooldownUntil := fun _ => 0
        brushSize := room.configuredBrushSize
        durationMs := room.configuredDurationMs
        endsAtMs := nowMs + room.configuredDurationMs
        state := .running }
  | finish (hstate : room.state = .running) : Step room false { room with state := .finished }
  | stroke (i : Fin maxPlayers) (cooldown : UInt64) (board : Board)
      (hstate : room.state = .running) (hslot : room.playerSessions i ≠ 0)
      (hboard : room.board.Accounted →
        board.Accounted ∧ Board.Stroke (room.playerTeams i) room.board board) :
      Step room false { room with
        cooldownUntil := Function.update room.cooldownUntil i cooldown, board := board }

namespace Room

theorem forceReset_eq_some {room room' : Room} {env : Env} {w h brush : UInt16}
    {durationMs : UInt64} (hr : room.forceReset env w h brush durationMs = some room') :
    ∃ board, Renewed room.board board ∧ room' = room.renew board brush durationMs := by
  rw [forceReset] at hr
  split_ifs at hr
  cases hb : resetBoard room.board env w h with
  | none => simp [hb] at hr
  | some board =>
      have hboard : Renewed room.board board := by
        rw [resetBoard] at hb
        split_ifs at hb with hsize halloc
        · exact .inr ⟨w, h, hsize, hb⟩
        · exact .inl (Option.some.inj hb).symm
      refine ⟨board, hboard, ?_⟩
      simp only [hb, detachTimer] at hr
      split_ifs at hr with htimer hremoved
      · rw [Bool.not_eq_true'] at htimer
        rw [← Option.some.inj hr, renew, ← htimer]
      · exact (Option.some.inj hr).symm

/-- The loops of a stroke keep the scores right and paint in one colour. -/
theorem foldl_paintCell {team : Team} {b : Board} (cells : List (ℤ × ℤ)) {acc : Bool × Board}
    (hacc : acc.2.Accounted) (hstroke : Board.Stroke team b acc.2) :
    (cells.foldl (paintCell team) acc).2.Accounted ∧
      Board.Stroke team b (cells.foldl (paintCell team) acc).2 := by
  induction cells generalizing acc with
  | nil => exact ⟨hacc, hstroke⟩
  | cons cell cells ih =>
      rw [List.foldl_cons]
      refine ih ?_ ?_
      · rw [paintCell]
        split_ifs
        · exact hacc.paint _ _ _
        · exact hacc
      · rw [paintCell]
        split_ifs
        · exact hstroke.paint hacc _ _
        · exact hstroke

theorem checkGameOver_cases (room : Room) (nowMs : UInt64) :
    (room.checkGameOver nowMs = room ∧ (room.state = .running → nowMs < room.endsAtMs)) ∨
      (room.state = .running ∧ nowMs ≥ room.endsAtMs ∧
        room.checkGameOver nowMs = { room with state := .finished }) := by
  rw [checkGameOver]
  split_ifs with hstate hend
  · exact .inl ⟨rfl, fun h => absurd h hstate⟩
  · rw [not_not] at hstate
    exact .inr ⟨hstate, hend, by simp [triggerTimeOver, hstate]⟩
  · exact .inl ⟨rfl, fun _ => UInt64.not_le.mp hend⟩

/-- The board after the loops of a stroke. -/
def strokeBoard (room : Room) (i : Fin maxPlayers) (x y : UInt16) : Board :=
  ((brushCells room.brushSize x y).foldl (paintCell (room.playerTeams i)) (false, room.board)).2

/-- A paint is rejected and leaves the room alone, or it finds the game over, or it is accepted. -/
theorem paint_cases (room : Room) (playerIdx : UInt8) (gen : UInt64) (x y : UInt16)
    (nowMs : UInt64) :
    ((room.paint playerIdx gen x y nowMs).1 ≠ .changed ∧
        (room.paint playerIdx gen x y nowMs).1 ≠ .unchanged ∧
        (room.paint playerIdx gen x y nowMs).2 = room) ∨
      ((room.paint playerIdx gen x y nowMs).1 = .timeOver ∧ room.state = .running ∧
        nowMs ≥ room.endsAtMs ∧
        (room.paint playerIdx gen x y nowMs).2 = { room with state := .finished }) ∨
      ∃ i, slotOf playerIdx = some i ∧ gen = room.generation ∧ room.playerSessions i ≠ 0 ∧
        room.state = .running ∧ nowMs < room.endsAtMs ∧ room.cooldownUntil i ≤ nowMs ∧
        ((room.paint playerIdx gen x y nowMs).1 = .changed ∨
          (room.paint playerIdx gen x y nowMs).1 = .unchanged) ∧
        (room.paint playerIdx gen x y nowMs).2 = { room with
          cooldownUntil := Function.update room.cooldownUntil i (nowMs + cooldownMs)
          board := room.strokeBoard i x y } := by
  rw [paint]
  cases hslot : slotOf playerIdx with
  | none => exact .inl ⟨by simp, by simp, rfl⟩
  | some i =>
      simp only
      by_cases hgen : gen ≠ room.generation
      · rw [if_pos hgen]
        exact .inl ⟨by simp, by simp, rfl⟩
      by_cases hsession : room.playerSessions i = 0
      · rw [if_neg hgen, if_pos hsession]
        exact .inl ⟨by simp, by simp, rfl⟩
      by_cases hout : x ≥ room.board.width ∨ y ≥ room.board.height
      · rw [if_neg hgen, if_neg hsession, if_pos hout]
        exact .inl ⟨by simp, by simp, rfl⟩
      rw [if_neg hgen, if_neg hsession, if_neg hout]
      obtain ⟨heq, hend⟩ | ⟨hstate, hend, heq⟩ := room.checkGameOver_cases nowMs
      · rw [heq]
        by_cases hrunning : room.state ≠ .running
        · rw [if_pos hrunning]
          exact .inl ⟨by simp, by simp, rfl⟩
        by_cases hcool : nowMs < room.cooldownUntil i
        · rw [if_neg hrunning, if_pos hcool]
          exact .inl ⟨by simp, by simp, rfl⟩
        rw [if_neg hrunning, if_neg hcool]
        rw [not_not] at hgen hrunning
        rw [UInt64.not_lt] at hcool
        refine .inr (.inr ⟨i, rfl, hgen, hsession, hrunning, hend hrunning, hcool, ?_, rfl⟩)
        split_ifs
        · exact .inl rfl
        · exact .inr rfl
      · rw [heq, if_pos (by simp)]
        exact .inr (.inl ⟨rfl, hstate, hend, rfl⟩)

/-- The initializer after a session has asked for a slot. -/
def claimed (room : Room) (userId : UInt64) : UInt64 :=
  if room.initializerSession = 0 then userId else room.initializerSession

/-- A session is refused, or it gets a slot, or there is none left. -/
theorem assignPlayer_cases (room : Room) (userId : UInt64) (reqTeam : Team) :
    ((userId = 0 ∨ (reqTeam ≠ .red ∧ reqTeam ≠ .blue) ∨ room.state ≠ .waiting ∨
        room.teamCount userId reqTeam ≥ 3) ∧ (room.assignPlayer userId reqTeam).2 = room) ∨
      (userId ≠ 0 ∧ (reqTeam = .red ∨ reqTeam = .blue) ∧ room.state = .waiting ∧
        room.teamCount userId reqTeam < 3 ∧
        ((∃ i cooldown, (room.playerSessions i = userId ∨
            room.playerSessions i = 0 ∧ ∀ j, room.playerSessions j ≠ userId) ∧
          (room.assignPlayer userId reqTeam).2 = { room with
            initializerSession := room.claimed userId
            playerSessions := Function.update room.playerSessions i userId
            playerTeams := Function.update room.playerTeams i reqTeam
            cooldownUntil := cooldown }) ∨
        (∀ i, room.playerSessions i ≠ 0) ∧ (room.assignPlayer userId reqTeam).2 =
          { room with initializerSession := room.claimed userId })) := by
  rw [assignPlayer]
  by_cases harg : userId = 0 ∨ (reqTeam ≠ .red ∧ reqTeam ≠ .blue)
  · rw [if_pos harg]
    exact .inl ⟨harg.imp_right .inl, rfl⟩
  by_cases hstate : room.state ≠ .waiting
  · rw [if_neg harg, if_pos hstate]
    exact .inl ⟨.inr (.inr (.inl hstate)), rfl⟩
  by_cases hred : reqTeam = .red ∧ room.teamCount userId .red ≥ 3
  · rw [if_neg harg, if_neg hstate, if_pos hred]
    exact .inl ⟨.inr (.inr (.inr (hred.1 ▸ hred.2))), rfl⟩
  by_cases hblue : reqTeam = .blue ∧ room.teamCount userId .blue ≥ 3
  · rw [if_neg harg, if_neg hstate, if_neg hred, if_pos hblue]
    exact .inl ⟨.inr (.inr (.inr (hblue.1 ▸ hblue.2))), rfl⟩
  rw [if_neg harg, if_neg hstate, if_neg hred, if_neg hblue]
  rw [not_or] at harg
  rw [not_not] at hstate
  have hteam : reqTeam = .red ∨ reqTeam = .blue := by tauto
  have hcount : room.teamCount userId reqTeam < 3 := by
    rcases hteam with rfl | rfl
    · exact Nat.not_le.mp fun h => hred ⟨rfl, h⟩
    · exact Nat.not_le.mp fun h => hblue ⟨rfl, h⟩
  have hclaimed : (if room.initializerSession = 0 then { room with initializerSession := userId }
      else room) = { room with initializerSession := room.claimed userId } := by
    rw [claimed]
    split_ifs <;> rfl
  simp only [hclaimed]
  refine .inr ⟨harg.1, hteam, hstate, hcount, ?_⟩
  cases hfind : slots.find? fun i => decide (room.playerSessions i = userId) with
  | some i =>
      have hi : room.playerSessions i = userId := by simpa using List.find?_some hfind
      refine .inl ⟨i, room.cooldownUntil, .inl hi, ?_⟩
      simp only [← hi, Function.update_eq_self]
  | none =>
      have hother : ∀ j, room.playerSessions j ≠ userId := by simpa using hfind
      cases hfree : slots.find? fun i => decide (room.playerSessions i = 0) with
      | some i =>
          have hi : room.playerSessions i = 0 := by simpa using List.find?_some hfree
          exact .inl ⟨i, _, .inr ⟨hi, hother⟩, rfl⟩
      | none => exact .inr ⟨by simpa using hfree, rfl⟩

theorem step_assignPlayer (room : Room) (userId : UInt64) (reqTeam : Team) :
    Step room false (room.assignPlayer userId reqTeam).2 := by
  obtain ⟨-, heq⟩ | ⟨huser, hteam, hstate, hcount, ⟨i, cooldown, hslot, heq⟩ | ⟨-, heq⟩⟩ :=
    room.assignPlayer_cases userId reqTeam
  · rw [heq]
    exact .idle
  · rw [heq]
    exact .seat i userId reqTeam _ cooldown hstate huser hteam hcount hslot
  · rw [heq]
    exact .claim _

/-- Nobody leaves, or the player in slot `i` does; the last one leaves an empty room. -/
theorem removePlayer_cases (room : Room) (env : Env) (playerIdx : UInt8) :
    ((∀ i, slotOf playerIdx = some i → room.playerSessions i = 0) ∧
        (room.removePlayer env playerIdx).2 = room) ∨
      ∃ i, slotOf playerIdx = some i ∧ room.playerSessions i ≠ 0 ∧
        ((∃ j, (room.vacate i).playerSessions j ≠ 0) ∧
            (room.removePlayer env playerIdx).2 = room.vacate i ∨
          (∀ j, (room.vacate i).playerSessions j = 0) ∧
            (room.removePlayer env playerIdx).2.playerSessions =
              (room.vacate i).playerSessions) := by
  rw [removePlayer]
  cases hslot : slotOf playerIdx with
  | none => exact .inl ⟨by simp, rfl⟩
  | some i =>
      simp only
      by_cases hi : room.playerSessions i = 0
      · rw [if_pos hi]
        refine .inl ⟨fun j hj => ?_, rfl⟩
        obtain rfl := Option.some.inj hj
        exact hi
      rw [if_neg hi]
      refine .inr ⟨i, rfl, hi, ?_⟩
      by_cases hempty : (slots.all fun j => decide ((room.vacate i).playerSessions j = 0)) = true
      · rw [if_pos hempty]
        refine .inr ⟨by simpa using hempty, ?_⟩
        split_ifs
        · split
          · rfl
          · rename_i room' hreset
            obtain ⟨board, -, rfl⟩ := forceReset_eq_some hreset
            rfl
        · rfl
      · rw [if_neg hempty]
        exact .inl ⟨by simpa using hempty, rfl⟩

theorem reset_eq_some {room room' : Room} {env : Env} {requester : UInt64} {w h brush : UInt16}
    {durationMs : UInt64} (hr : room.reset env requester w h brush durationMs = some room') :
    ∃ board, Renewed room.board board ∧ room' = room.renew board brush durationMs := by
  rw [reset] at hr
  split_ifs at hr
  exact forceReset_eq_some hr

theorem step_removePlayer (room : Room) (env : Env) (playerIdx : UInt8) :
    Step room ((Op.removePlayer env playerIdx).resets room)
      (room.removePlayer env playerIdx).2 := by
  rw [removePlayer, Op.resets]
  cases slotOf playerIdx with
  | none => exact .idle
  | some i =>
      simp only
      by_cases hslot : room.playerSessions i = 0
      · rw [if_pos hslot, decide_eq_false (not_not.mpr hslot)]
        exact .idle
      rw [if_neg hslot, decide_eq_true hslot, Bool.true_and]
      by_cases hempty : (slots.all fun j => decide ((room.vacate i).playerSessions j = 0)) = true
      · rw [if_pos hempty, hempty, Bool.true_and]
        by_cases hstate : (room.vacate i).state ≠ .waiting
        · rw [if_pos hstate, decide_eq_true hstate, Bool.true_and]
          cases hreset : (room.vacate i).autoReset env with
          | none =>
              rw [autoReset] at hreset
              simp only [hreset]
              exact .vacate i room.initializerSession hslot
          | some room' =>
              rw [autoReset] at hreset
              simp only [hreset]
              obtain ⟨board, hboard, rfl⟩ := forceReset_eq_some hreset
              exact .vacateRenew i 0 board _ _ hslot hboard
        · rw [if_neg hstate, decide_eq_false hstate, Bool.false_and]
          exact .vacate i 0 hslot
      · rw [if_neg hempty, Bool.eq_false_iff.mpr hempty, Bool.false_and, Bool.false_and]
        exact .vacate i room.initializerSession hslot

theorem step_reset (room : Room) (env : Env) (requester : UInt64) (w h brush : UInt16)
    (durationMs : UInt64) :
    Step room ((Op.reset env requester w h brush durationMs).resets room)
      ((room.reset env requester w h brush durationMs).getD room) := by
  rw [Op.resets, reset]
  split_ifs with harg hstate hrequester
  · exact .idle
  · exact .idle
  · exact .idle
  · cases hreset : room.forceReset env w h brush durationMs with
    | none => exact .idle
    | some room' =>
        obtain ⟨board, hboard, rfl⟩ := forceReset_eq_some hreset
        exact .renew board brush durationMs hstate hboard

theorem step_start (room : Room) (env : Env) (nowMs : UInt64) :
    Step room false ((room.start env nowMs).getD room) := by
  rw [start]
  split_ifs with hcan
  case neg =>
    simp only [canStart, Bool.not_eq_true', decide_eq_false_iff_not, not_not] at hcan
    exact .start nowMs hcan.1 hcan.2.1 hcan.2.2
  all_goals exact .idle

theorem step_triggerTimeOver (room : Room) : Step room false room.triggerTimeOver := by
  rw [triggerTimeOver]
  split_ifs with hstate
  · exact .idle
  · exact .finish (not_not.mp hstate)

theorem step_checkGameOver (room : Room) (nowMs : UInt64) :
    Step room false (room.checkGameOver nowMs) := by
  obtain ⟨heq, -⟩ | ⟨hstate, -, heq⟩ := room.checkGameOver_cases nowMs
  · rw [heq]
    exact .idle
  · rw [heq]
    exact .finish hstate

theorem step_paint (room : Room) (playerIdx : UInt8) (gen : UInt64) (x y : UInt16)
    (nowMs : UInt64) : Step room false (room.paint playerIdx gen x y nowMs).2 := by
  obtain ⟨-, -, heq⟩ | ⟨-, hstate, -, heq⟩ | ⟨i, -, -, hslot, hstate, -, -, -, heq⟩ :=
    room.paint_cases playerIdx gen x y nowMs
  · rw [heq]
    exact .idle
  · rw [heq]
    exact .finish hstate
  · rw [heq]
    exact .stroke i _ _ hstate hslot fun h => foldl_paintCell _ h (.refl _ _)

end Room

/-- **Every call is a step.** -/
theorem exec_step (room : Room) (op : Op) : Step room (op.resets room) (op.exec room) := by
  cases op with
  | assignPlayer userId reqTeam => exact room.step_assignPlayer userId reqTeam
  | removePlayer env playerIdx => exact room.step_removePlayer env playerIdx
  | reset env requester w h brush durationMs =>
      exact room.step_reset env requester w h brush durationMs
  | start env nowMs => exact room.step_start env nowMs
  | paint playerIdx gen x y nowMs => exact room.step_paint playerIdx gen x y nowMs
  | checkGameOver nowMs => exact room.step_checkGameOver nowMs
  | timerExpired => exact room.step_triggerTimeOver

/-- What holds of a new room and is kept by every step holds after every run. -/
theorem run_invariant {P : Room → Prop}
    (hstep : ∀ {room room' resets}, P room → Step room resets room' → P room') {room : Room}
    (h : P room) (ops : List Op) : P (run room ops) := by
  induction ops generalizing room with
  | nil => exact h
  | cons op ops ih => exact ih (hstep h (exec_step room op))

/-! ### The scores and the version -/

theorem Renewed.accounted {b b' : Board} (h : Renewed b b') : b'.Accounted := by
  rcases h with rfl | ⟨w, h, -, hnew⟩
  · exact b.accounted_clear
  · exact Board.accounted_new hnew

theorem Step.accounted {room room' : Room} {resets : Bool} (h : room.board.Accounted)
    (hstep : Step room resets room') : room'.board.Accounted := by
  cases hstep with
  | vacateRenew i initializer board brush durationMs hslot hboard => exact hboard.accounted
  | renew board brush durationMs hstate hboard => exact hboard.accounted
  | stroke i cooldown board hstate hslot hboard => exact (hboard h).1
  | _ => exact h

/-- A step renews the board and the generation, or it changes pixels and counts them. -/
theorem Step.sequence {room room' : Room} {resets : Bool} (h : room.board.Accounted)
    (hstep : Step room resets room') :
    (room'.generation = room.generation ∧ room'.board.width = room.board.width ∧
        room'.board.height = room.board.height ∧
        room'.board.sequence = room.board.sequence +
          UInt64.ofNat (Board.changes room.board.pixels room'.board.pixels)) ∨
      (room'.generation = room.generation + 1 ∧ Renewed room.board room'.board) := by
  cases hstep with
  | vacateRenew i initializer board brush durationMs hslot hboard => exact .inr ⟨rfl, hboard⟩
  | renew board brush durationMs hstate hboard => exact .inr ⟨rfl, hboard⟩
  | stroke i cooldown board hstate hslot hboard =>
      obtain ⟨-, hstroke⟩ := hboard h
      exact .inl ⟨rfl, hstroke.width, hstroke.height, hstroke.sequence⟩
  | _ => exact .inl ⟨rfl, rfl, rfl, by simp [Room.vacate, Board.changes_self]⟩

theorem accounted_newGameRoom {roomId : UInt64} {w h : UInt16} {room : Room}
    (hnew : newGameRoom roomId w h = some room) : room.board.Accounted := by
  rw [newGameRoom, Option.map_eq_some_iff] at hnew
  obtain ⟨board, hboard, rfl⟩ := hnew
  exact Board.accounted_new hboard

/-- A call of `PixelBoard_paint` changes no pixel, or it changes one and the version. -/
theorem Board.paint_sequence {b : Board} (h : b.Accounted) (x y : UInt16) (team : Team) :
    ((b.paint x y team).1 ≠ .changed ∧ (b.paint x y team).2 = b) ∨
      ((b.paint x y team).1 = .changed ∧
        Board.changes b.pixels (b.paint x y team).2.pixels = 1 ∧
        (b.paint x y team).2.sequence = b.sequence + 1) := by
  obtain ⟨hres, heq⟩ | ⟨hx, hy, -, hne, hres, heq⟩ := b.paint_cases x y team
  · exact .inl ⟨hres, heq⟩
  · have hidx := h.index_lt hx hy
    refine .inr ⟨hres, ?_, by rw [heq]⟩
    rw [heq]
    show Board.changes b.pixels (b.pixels.set _ team) = 1
    rw [Board.changes_set hidx hidx rfl hne, Board.changes_self]

/-- **The board is accounted for** in every reachable state. The version of a board is a 64-bit
counter: it moves on by one for each pixel that changes and for a clear, and a call that does
neither leaves it alone. A reset to another size makes a new board. -/
theorem board_accounting (roomId : UInt64) (w h : UInt16) (room : Room)
    (hnew : newGameRoom roomId w h = some room) (ops : List Op) :
    let r := run room ops
    (r.board.redScore.toNat = r.board.pixels.count .red ∧
      r.board.blueScore.toNat = r.board.pixels.count .blue ∧
      r.board.emptyCount.toNat = r.board.pixels.count .empty ∧
      r.board.redScore.toNat + r.board.blueScore.toNat + r.board.emptyCount.toNat =
        r.board.width.toNat * r.board.height.toNat) ∧
    (∀ x y team, ((r.board.paint x y team).1 ≠ .changed ∧ (r.board.paint x y team).2 = r.board) ∨
      ((r.board.paint x y team).1 = .changed ∧
        Board.changes r.board.pixels (r.board.paint x y team).2.pixels = 1 ∧
        (r.board.paint x y team).2.sequence = r.board.sequence + 1)) ∧
    ∀ op : Op, let r' := op.exec r
      (r'.generation = r.generation ∧ r'.board.width = r.board.width ∧
        r'.board.height = r.board.height ∧
        r'.board.sequence = r.board.sequence +
          UInt64.ofNat (Board.changes r.board.pixels r'.board.pixels)) ∨
      (r'.generation = r.generation + 1 ∧
        ((r'.board = r.board.clear ∧ r'.board.sequence = r.board.sequence + 1) ∨
          ∃ w h, (r.board.width ≠ w ∨ r.board.height ≠ h) ∧ Board.new w h = some r'.board)) := by
  intro r
  have hacc : r.board.Accounted :=
    run_invariant (P := fun room => room.board.Accounted) Step.accounted
      (accounted_newGameRoom hnew) ops
  refine ⟨⟨hacc.red, hacc.blue, hacc.empty, hacc.sum⟩,
    fun x y team => Board.paint_sequence hacc x y team, fun op => ?_⟩
  obtain hsame | ⟨hgen, hclear | hboard⟩ := (exec_step r op).sequence hacc
  · exact .inl hsame
  · exact .inr ⟨hgen, .inl ⟨hclear, by rw [hclear]; rfl⟩⟩
  · exact .inr ⟨hgen, .inr hboard⟩

/-- Every request succeeds. -/
def Env.ok : Env := ⟨true, true, true, true⟩

/-- A red and a blue player, and a stroke of red on a board of 8 by 8 pixels. -/
def sampleGame : List Op :=
  [.assignPlayer 1 .red, .assignPlayer 2 .blue, .start .ok 7, .paint 0 1 1 1 7]

/-! ### Many resets -/

/-- A waiting room of 8 by 8 pixels that session `1` may reset. -/
structure Resettable (room : Room) : Prop where
  state : room.state = .waiting
  timer : room.gameTimer = false
  initializer : room.initializerSession = 1
  width : room.board.width = 8
  height : room.board.height = 8

/-- Session `1` resets the room to its size. -/
def resetOp : Op := .reset .ok 1 8 8 5 1000

theorem exec_resetOp {room : Room} (h : Resettable room) :
    resetOp.exec room = room.renew room.board.clear 5 1000 := by
  have hboard : Room.resetBoard room.board .ok 8 8 = some room.board.clear := by
    rw [Room.resetBoard, if_neg (by simp [h.width, h.height])]
  have htimer : room.detachTimer .ok = some room := by simp [Room.detachTimer, h.timer]
  rw [resetOp, Op.exec, Room.reset, if_neg (by decide), if_neg (by simp [h.state]),
    if_neg (by simp [h.initializer]), Room.forceReset, if_neg (by decide), hboard]
  simp only [htimer, Option.getD_some, Room.renew, h.timer]

theorem Resettable.exec {room : Room} (h : Resettable room) : Resettable (resetOp.exec room) := by
  rw [exec_resetOp h]
  exact ⟨rfl, rfl, h.initializer, h.width, h.height⟩

/-- The counters after many resets. -/
theorem run_resets {room : Room} (h : Resettable room) (n : ℕ) :
    Resettable (run room (List.replicate n resetOp)) ∧
      (run room (List.replicate n resetOp)).generation = room.generation + UInt64.ofNat n ∧
      (run room (List.replicate n resetOp)).board.sequence =
        room.board.sequence + UInt64.ofNat n := by
  induction n generalizing room with
  | zero => exact ⟨h, by simp [run], by simp [run]⟩
  | succ n ih =>
      have hrun : run room (List.replicate (n + 1) resetOp) =
          run (resetOp.exec room) (List.replicate n resetOp) := rfl
      obtain ⟨hn, hgen, hseq⟩ := ih h.exec
      rw [hrun]
      refine ⟨hn, ?_, ?_⟩
      · rw [hgen, exec_resetOp h, Nat.add_comm n, UInt64.ofNat_add, ← UInt64.add_assoc]
        rfl
      · rw [hseq, exec_resetOp h, Nat.add_comm n, UInt64.ofNat_add, ← UInt64.add_assoc]
        rfl

/-- Session `1` joins a new room and resets it `n` times. -/
def manyResets (n : ℕ) : List Op := .assignPlayer 1 .red :: List.replicate n resetOp

theorem run_manyResets {room : Room} (hnew : newGameRoom 1 8 8 = some room) (n : ℕ) :
    Resettable (run room (manyResets n)) ∧
      (run room (manyResets n)).generation = 1 + UInt64.ofNat n ∧
      (run room (manyResets n)).board.sequence = UInt64.ofNat n := by
  have hopen : Resettable ((Op.assignPlayer 1 .red).exec room) ∧
      ((Op.assignPlayer 1 .red).exec room).generation = 1 ∧
      ((Op.assignPlayer 1 .red).exec room).board.sequence = 0 := by
    obtain rfl := Option.some.inj hnew
    exact ⟨⟨rfl, rfl, rfl, rfl, rfl⟩, rfl, rfl⟩
  have hassign : run room (manyResets n) =
      run ((Op.assignPlayer 1 .red).exec room) (List.replicate n resetOp) := rfl
  obtain ⟨hr, hgen, hseq⟩ := run_resets hopen.1 n
  rw [hopen.2.1] at hgen
  rw [hopen.2.2, UInt64.zero_add] at hseq
  rw [hassign]
  exact ⟨hr, hgen, hseq⟩

/-- After `2 ^ 64 - 1` clears of a board the next one sets its version back to zero. -/
theorem sequence_wraps :
    ∃ room, newGameRoom 1 8 8 = some room ∧
      let r := run room (manyResets (2 ^ 64 - 1))
      (resetOp.exec r).board = r.board.clear ∧
        (resetOp.exec r).board.sequence.toNat ≠ r.board.sequence.toNat + 1 := by
  obtain ⟨room, hnew⟩ : ∃ room, newGameRoom 1 8 8 = some room := ⟨_, rfl⟩
  refine ⟨room, hnew, ?_⟩
  obtain ⟨hr, -, hseq⟩ := run_manyResets hnew (2 ^ 64 - 1)
  simp only
  rw [exec_resetOp hr]
  refine ⟨rfl, ?_⟩
  show ((run room (manyResets (2 ^ 64 - 1))).board.sequence + 1).toNat ≠ _
  rw [hseq]
  decide

end PixelWar
