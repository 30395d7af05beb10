import LibCore.ToosGame

/-!
# ToosType: The Roster

Who is in a room, who hosts it, and whether its settings are locked are facts the context keeps
in several places: the slots, a counter, the number of the host and a flag. `Lobby` is the part
of a context that these facts are about, and `Lobby.Step` and `Lobby.Joined` say everything a
call can do to it. The facts themselves are an invariant of the steps.

The one thing that breaks it is a sequence number: the search for the host starts from
`UINT64_MAX` and takes only players with a smaller number, so the player that joins with this
number never hosts.

## Main results

* `exec_step`: every call is a step of the lobby, or a join.
* `Lobby.Inv.step`, `Lobby.Inv.joined`: the invariant.
* `roster_of_reachable`: it holds in every run in which no player joins with `UINT64_MAX`.
* `roster_fails`: without that, it fails.
-/

open CString

namespace ToosType

/-! ### Lobbies -/

/-- An occupied slot. -/
structure Seat where
  playerNo : UInt32
  joinSeq : UInt64
  connected : Bool
  ready : Bool
  conn : Option Conn
deriving DecidableEq

/-- The slots, and what the context keeps about them. -/
structure Lobby where
  seats : Fin maxRoomPlayers → Option Seat
  state : GameState
  host : UInt32
  locked : Bool
  count : UInt32
  nextSeq : UInt64

/-- The seat in a slot. -/
def Player.seat (p : Player) : Option Seat :=
  if p.occupied then some ⟨p.playerNo, p.joinSeq, p.connected, p.ready, p.connPtr⟩ else none

/-- The lobby of a context. -/
def Ctx.lobby (ctx : Ctx) : Lobby where
  seats := fun i => (ctx.players i).seat
  state := ctx.room.state
  host := ctx.room.hostPlayerNo
  locked := ctx.room.languageLocked
  count := ctx.activePlayerCount
  nextSeq := ctx.nextJoinSeq

namespace Lobby

/-- The player in slot `i` is connected. -/
def Connected (seats : Fin maxRoomPlayers → Option Seat) (i : Fin maxRoomPlayers) (s : Seat) : Prop :=
  seats i = some s ∧ s.connected = true

/-- The number `recalculate_host` finds. -/
def hostOf (seats : Fin maxRoomPlayers → Option Seat) : List (Fin maxRoomPlayers) →
    UInt32 × UInt64 → UInt32 × UInt64
  | [], oldest => oldest
  | i :: slots, oldest =>
      match seats i with
      | some s =>
          if s.connected then
            if s.joinSeq < oldest.2 then hostOf seats slots (s.playerNo, s.joinSeq)
            else hostOf seats slots oldest
          else hostOf seats slots oldest
      | none => hostOf seats slots oldest

/-- A player joins in a free slot of a waiting room. -/
structure Joined (l l' : Lobby) (conn : Conn) : Prop where
  waiting : l.state = .waiting
  fresh : ∀ i s, l.seats i = some s → s.conn ≠ some conn
  seated : ∃ i, l.seats i = none ∧
    l' = { l with
      seats := Function.update l.seats i
        (some ⟨UInt32.ofNat (i + 1), l.nextSeq, true, false, some conn⟩)
      nextSeq := l.nextSeq + 1
      count := l.count + 1
      host := (hostOf (Function.update l.seats i
        (some ⟨UInt32.ofNat (i + 1), l.nextSeq, true, false, some conn⟩)) slots (0, uint64Max)).1 }

/-- What a call can do to a lobby, apart from a join. -/
inductive Step : Lobby → Lobby → Prop
  /-- Nothing changes. -/
  | stay {l : Lobby} : Step l l
  /-- A player is ready, and the settings are locked. -/
  | ready {l : Lobby} {i : Fin maxRoomPlayers} {s : Seat} : l.state = .waiting →
      l.seats i = some s →
      Step l { l with seats := Function.update l.seats i (some { s with ready := true })
                      locked := true }
  /-- At least two connected players, all of them ready, start the countdown. -/
  | countdown {l : Lobby} : l.state = .waiting →
      minRoomPlayers ≤ slots.countP (fun i => (l.seats i).any (·.connected)) →
      (∀ i s, Connected l.seats i s → s.ready = true) → Step l { l with state := .countdown }
  /-- A player leaves before the game, and others stay. -/
  | leave {l : Lobby} {i : Fin maxRoomPlayers} {s : Seat} :
      l.state = .waiting ∨ l.state = .countdown → l.seats i = some s →
      (if l.count > 0 then l.count - 1 else l.count) ≠ 0 →
      Step l { l with
        seats := Function.update l.seats i none
        state := .waiting
        host := (hostOf (Function.update l.seats i none) slots (0, uint64Max)).1
        locked := slots.any fun j =>
          (Function.update l.seats i none j).any fun t => t.connected && t.ready
        count := if l.count > 0 then l.count - 1 else l.count }
  /-- The room is emptied. -/
  | reset {l : Lobby} : Step l ⟨fun _ => none, .waiting, 0, false, 0, l.nextSeq⟩
  /-- A player drops out of the game and keeps the slot. -/
  | dropOut {l : Lobby} {i : Fin maxRoomPlayers} {s : Seat} :
      l.state = .playing ∨ l.state = .result → l.seats i = some s →
      Step l { l with
        seats := Function.update l.seats i (some { s with connected := false, conn := none }) }
  /-- The countdown ends, or the game does. -/
  | progress {l : Lobby} {state : GameState} :
      l.state = .countdown ∧ state = .playing ∨
        (l.state = .countdown ∨ l.state = .playing) ∧ state = .result →
      Step l { l with state := state }

end Lobby

/-! ### Calls are steps -/

@[simp] theorem lobby_emitEvent (ctx : Ctx) (target : Option Conn) (payload : Payload) :
    (emitEvent ctx target payload).lobby = ctx.lobby := rfl

@[simp] theorem lobby_emitError (ctx : Ctx) (conn : Option Conn) (msg : String) :
    (emitError ctx conn msg).lobby = ctx.lobby := rfl

@[simp] theorem lobby_emitRoomConfig (ctx : Ctx) (target : Option Conn) :
    (emitRoomConfig ctx target).lobby = ctx.lobby := rfl

@[simp] theorem lobby_spawn (ctx : Ctx) (spawn : SpawnEngine) :
    ({ ctx with spawn := spawn } : Ctx).lobby = ctx.lobby := rfl

@[simp] theorem lobby_resetSpawnEngine (ctx : Ctx) :
    (resetSpawnEngine ctx).lobby = ctx.lobby := rfl

theorem seats_setPlayer (ctx : Ctx) (i : Fin maxRoomPlayers) (p : Player) :
    (ctx.setPlayer i p).lobby.seats = Function.update ctx.lobby.seats i p.seat := by
  funext j
  by_cases h : j = i
  · subst h
    simp [Ctx.lobby, Ctx.setPlayer]
  · simp [Ctx.lobby, Ctx.setPlayer, Function.update_of_ne h]

/-- A change of a player that keeps the seat does not change the lobby. -/
theorem lobby_setPlayer_of_seat {ctx : Ctx} {i : Fin maxRoomPlayers} {p : Player}
    (h : p.seat = (ctx.players i).seat) : (ctx.setPlayer i p).lobby = ctx.lobby := by
  have hseats : (ctx.setPlayer i p).lobby.seats = ctx.lobby.seats := by
    rw [seats_setPlayer, h]
    exact Function.update_eq_self i ctx.lobby.seats
  rw [Lobby.mk.injEq]
  exact ⟨hseats, rfl, rfl, rfl, rfl, rfl⟩

theorem lobby_issueNextSentence (ctx : Ctx) (i : Fin maxRoomPlayers) (nowMs : UInt64) :
    (issueNextSentence ctx i nowMs).lobby = ctx.lobby := by
  rw [issueNextSentence]
  simp only
  split
  · exact lobby_setPlayer_of_seat rfl
  · split
    · exact lobby_setPlayer_of_seat rfl
    · split
      · exact lobby_setPlayer_of_seat rfl
      · split
        · exact lobby_setPlayer_of_seat rfl
        · exact lobby_setPlayer_of_seat rfl

theorem lobby_dealPlayer (nowMs : UInt64) (ctx : Ctx) (i : Fin maxRoomPlayers) :
    (dealPlayer nowMs ctx i).lobby = ctx.lobby := by
  rw [dealPlayer]
  split
  · exact lobby_issueNextSentence ctx i nowMs
  · rfl

theorem seat_advanceCursor (p : Player) : p.advanceCursor.seat = p.seat := by
  rw [Player.advanceCursor]
  split <;> rfl

theorem seat_credit (p : Player) (room : Room) (k : Fin maxPhases) (input : Bytes)
    (jres : JudgeResult) : (p.credit room k input jres).seat = p.seat := by
  cases jres <;> rfl

theorem seat_updatePlayerStats (room : Room) (p : Player) (nowMs : UInt64) :
    (updatePlayerStats room p nowMs).seat = p.seat := rfl

theorem lobby_expirePlayer (nowMs : UInt64) (ctx : Ctx) (i : Fin maxRoomPlayers) :
    (expirePlayer nowMs ctx i).lobby = ctx.lobby := by
  rw [expirePlayer]
  simp only
  split
  · split
    · rw [lobby_issueNextSentence, lobby_setPlayer_of_seat, lobby_emitEvent, lobby_emitEvent,
        lobby_setPlayer_of_seat]
      · rw [seat_updatePlayerStats]
        rfl
      · rw [seat_advanceCursor]
        simp [emitEvent, Ctx.setPlayer]
    · rfl
  · rfl

theorem lobby_finishPlayer (ctx : Ctx) (i : Fin maxRoomPlayers) :
    (finishPlayer ctx i).lobby = ctx.lobby := by
  rw [finishPlayer]
  simp only
  split
  · by_cases hexpires : (ctx.players i).activeSentenceId ≠ 0 ∧
        (ctx.players i).sentenceDeadlineMs ≤ ctx.room.gameEndMs
    · simp only [if_pos hexpires]
      exact lobby_setPlayer_of_seat rfl
    · simp only [if_neg hexpires]
      exact lobby_setPlayer_of_seat rfl
  · rfl

theorem lobby_foldl {f : Ctx → Fin maxRoomPlayers → Ctx} (h : ∀ ctx i, (f ctx i).lobby = ctx.lobby)
    (is : List (Fin maxRoomPlayers)) (ctx : Ctx) : (is.foldl f ctx).lobby = ctx.lobby := by
  induction is generalizing ctx with
  | nil => rfl
  | cons i is ih => rw [List.foldl_cons, ih, h]

theorem lobby_tickDeadlines (ctx : Ctx) (nowMs : UInt64) :
    (tickDeadlines ctx nowMs).lobby = ctx.lobby := by
  rw [tickDeadlines]
  split
  · exact lobby_foldl (lobby_expirePlayer nowMs) _ _
  · rfl

/-- A tick moves the state of the room and nothing else. -/
theorem lobby_tick (ctx : Ctx) (nowMs : UInt64) :
    ∃ now, (tick ctx nowMs).lobby = { ctx.lobby with state := (ctx.room.tick now).2.state } := by
  refine ⟨if nowMs = 0 then ctx.lastTickMs else nowMs, ?_⟩
  obtain ⟨hlock, hhost, -⟩ := ctx.room.tick_spec (if nowMs = 0 then ctx.lastTickMs else nowMs)
  have hroom : ∀ c : Ctx, c.room = (ctx.room.tick (if nowMs = 0 then ctx.lastTickMs else nowMs)).2 →
      c.players = ctx.players → c.activePlayerCount = ctx.activePlayerCount →
      c.nextJoinSeq = ctx.nextJoinSeq → c.lobby = { ctx.lobby with
        state := (ctx.room.tick (if nowMs = 0 then ctx.lastTickMs else nowMs)).2.state } := by
    intro c h1 h2 h3 h4
    simp only [Ctx.lobby, h1, h2, h3, h4, hlock, hhost]
  rw [tick]
  simp only
  split
  · rw [lobby_tickDeadlines, lobby_foldl (lobby_dealPlayer _), lobby_emitRoomConfig, lobby_emitEvent]
    exact hroom _ rfl rfl rfl rfl
  · rw [lobby_tickDeadlines, lobby_emitEvent]
    exact hroom _ rfl rfl rfl rfl
  · rw [lobby_emitRoomConfig, lobby_emitEvent, lobby_emitEvent, lobby_foldl lobby_finishPlayer]
    exact hroom _ rfl rfl rfl rfl
  · rw [lobby_tickDeadlines]
    exact hroom _ rfl rfl rfl rfl

theorem step_tick (ctx : Ctx) (nowMs : UInt64) : Lobby.Step ctx.lobby (tick ctx nowMs).lobby := by
  obtain ⟨now, heq⟩ := lobby_tick ctx nowMs
  rw [heq]
  obtain ⟨-, -, hsame | hmoved⟩ := ctx.room.tick_spec now
  · rw [hsame]
    exact .stay
  · exact .progress hmoved

theorem lobby_submit (ctx : Ctx) (conn : Conn) (sentenceId : UInt64) (input : Bytes)
    (nowMs : UInt64) : (submit ctx conn sentenceId input nowMs).2.lobby = ctx.lobby := by
  rw [submit]
  split
  · rfl
  simp only
  generalize (if nowMs = 0 then ctx.lastTickMs else nowMs) = now
  split
  · rfl
  split
  · rfl
  split
  · rfl
  split
  · rfl
  split
  · rfl
  split
  · rfl
  split
  · rfl
  split
  · rw [lobby_issueNextSentence, lobby_setPlayer_of_seat, lobby_emitEvent, lobby_emitEvent,
      lobby_setPlayer_of_seat]
    · rw [seat_updatePlayerStats, seat_credit]
    · rw [seat_advanceCursor]
      simp [emitEvent, Ctx.setPlayer]
  · rw [lobby_emitEvent, lobby_emitEvent, lobby_setPlayer_of_seat]
    rw [seat_updatePlayerStats, seat_credit]

theorem lobby_setLanguage (ctx : Ctx) (conn : Conn) (lang : Language) :
    (setLanguage ctx conn lang).2.lobby = ctx.lobby := by
  rw [setLanguage]
  split_ifs <;> rfl

theorem setDurationMinutes_eq_some {room room' : Room} {minutes : UInt32}
    (h : room.setDurationMinutes minutes = some room') :
    room'.state = room.state ∧ room'.hostPlayerNo = room.hostPlayerNo ∧
      room'.languageLocked = room.languageLocked := by
  rw [Room.setDurationMinutes] at h
  split_ifs at h
  obtain rfl := Option.some.inj h
  exact ⟨rfl, rfl, rfl⟩

theorem lobby_setDuration (ctx : Ctx) (conn : Conn) (minutes : UInt32) :
    (setDuration ctx conn minutes).2.lobby = ctx.lobby := by
  rw [setDuration]
  split_ifs
  · rfl
  · rfl
  · rfl
  · rfl
  · split
    · rfl
    · rename_i room hroom
      obtain ⟨hstate, hhost, hlock⟩ := setDurationMinutes_eq_some hroom
      rw [lobby_emitRoomConfig]
      simp only [Ctx.lobby, hstate, hhost, hlock]

theorem lobby_prepareStart (ctx : Ctx) (db : Repository) (conn : Conn) :
    (prepareStart ctx db conn).2.lobby = ctx.lobby := by
  rw [prepareStart]
  split_ifs
  · rfl
  · rfl
  · rfl
  · rfl
  · rfl
  · split <;> rfl

theorem lobby_abortStart (ctx : Ctx) : (abortStart ctx).lobby = ctx.lobby := by
  rw [abortStart]
  split <;> rfl

theorem seat_eq_some {p : Player} {s : Seat} (h : p.seat = some s) :
    p.occupied = true ∧ s = ⟨p.playerNo, p.joinSeq, p.connected, p.ready, p.connPtr⟩ := by
  rw [Player.seat] at h
  split_ifs at h with hocc
  exact ⟨hocc, (Option.some.inj h).symm⟩

theorem findPlayerByConn_eq_some {ctx : Ctx} {conn : Conn} {i : Fin maxRoomPlayers}
    (h : findPlayerByConn ctx conn = some i) :
    ctx.lobby.seats i = some ⟨(ctx.players i).playerNo, (ctx.players i).joinSeq,
      (ctx.players i).connected, (ctx.players i).ready, some conn⟩ := by
  have hi := List.find?_some h
  simp only [Bool.and_eq_true, decide_eq_true_eq] at hi
  simp only [Ctx.lobby, Player.seat, hi.1, hi.2, if_true]

theorem findPlayerByConn_eq_none {ctx : Ctx} {conn : Conn} (h : findPlayerByConn ctx conn = none) :
    ∀ i s, ctx.lobby.seats i = some s → s.conn ≠ some conn := by
  intro i s hs hconn
  obtain ⟨hocc, rfl⟩ := seat_eq_some hs
  have := List.find?_eq_none.mp h i (List.mem_finRange i)
  simp only [hocc, Bool.true_and, decide_eq_true_eq] at this
  exact this hconn

theorem step_setReady (ctx : Ctx) (conn : Conn) :
    Lobby.Step ctx.lobby (setReady ctx conn).2.lobby := by
  rw [setReady]
  split_ifs with hstate hlang
  · exact .stay
  · exact .stay
  · split
    · exact .stay
    · rename_i i hi
      have hseat := findPlayerByConn_eq_some hi
      have hlobby : (emitRoomConfig (({ ctx with room := { ctx.room with languageLocked := true } } :
          Ctx).setPlayer i { ctx.players i with ready := true }) none).lobby =
            { ctx.lobby with
              seats := Function.update ctx.lobby.seats i
                ({ ctx.players i with ready := true } : Player).seat
              locked := true } := by
        rw [lobby_emitRoomConfig, Lobby.mk.injEq]
        exact ⟨seats_setPlayer _ i _, rfl, rfl, rfl, rfl, rfl⟩
      simp only
      rw [hlobby]
      obtain ⟨hocc, heq⟩ := seat_eq_some hseat
      have hready : ({ ctx.players i with ready := true } : Player).seat = some
          { (⟨(ctx.players i).playerNo, (ctx.players i).joinSeq, (ctx.players i).connected,
            (ctx.players i).ready, some conn⟩ : Seat) with ready := true } := by
        have hconn := congrArg Seat.conn heq
        simp only at hconn
        simp [Player.seat, hocc, hconn]
      rw [hready]
      exact .ready (not_not.mp hstate) hseat

theorem countP_and_eq {α : Type} {p q : α → Bool} {l : List α}
    (h : l.countP (fun a => p a && q a) = l.countP p) : ∀ a ∈ l, p a = true → q a = true := by
  induction l with
  | nil => simp
  | cons a l ih =>
      have hle : l.countP (fun a => p a && q a) ≤ l.countP p :=
        List.countP_mono_left fun a _ ha => (Bool.and_eq_true _ _ ▸ ha).1
      rw [List.countP_cons, List.countP_cons] at h
      by_cases hp : p a = true
      · by_cases hq : q a = true
        · simp only [hp, hq, Bool.and_self, if_true] at h
          exact List.forall_mem_cons.mpr ⟨fun _ => hq, ih (by omega)⟩
        · simp only [hp, hq, Bool.and_false, Bool.false_eq_true, if_false, if_true] at h
          omega
      · simp only [hp, Bool.false_and, Bool.false_eq_true, if_false] at h
        exact List.forall_mem_cons.mpr ⟨fun hp' => absurd hp' hp, ih (by omega)⟩

theorem any_connected_seat (p : Player) : p.seat.any (·.connected) = (p.occupied && p.connected) := by
  rw [Player.seat]
  split_ifs with h <;> simp [h]

theorem step_startGame (ctx : Ctx) (conn : Conn) (nowMs : UInt64) :
    Lobby.Step ctx.lobby (startGame ctx conn nowMs).2.lobby := by
  have hreset : ∀ msg, (emitError (if ctx.spawn.loaded then resetSpawnEngine ctx else ctx)
      (some conn) msg).lobby = ctx.lobby := by
    intro msg
    split <;> rfl
  rw [startGame]
  split
  · exact .stay
  split
  · exact .stay
  rename_i hstate
  split
  · rw [hreset]
    exact .stay
  split
  · rw [hreset]
    exact .stay
  rename_i hcounts
  split
  · exact .stay
  split
  · exact .stay
  rename_i room hroom
  rw [Room.startCountdown, if_neg hstate] at hroom
  split at hroom
  · cases hroom
  obtain rfl := Option.some.inj hroom
  push Not at hcounts
  obtain ⟨htwo, hall⟩ := hcounts
  refine .countdown (not_not.mp hstate) ?_ ?_
  · simpa only [Ctx.lobby, any_connected_seat, connectedCount] using htwo
  · intro i s hs
    obtain ⟨hocc, rfl⟩ := seat_eq_some hs.1
    exact countP_and_eq hall i (List.mem_finRange i) (by simpa [hocc] using hs.2)

/-- The search for the host reads the lobby. -/
theorem hostLoop_eq (players : Fin maxRoomPlayers → Player) (is : List (Fin maxRoomPlayers))
    (oldest : UInt32 × UInt64) :
    hostLoop players is oldest = Lobby.hostOf (fun i => (players i).seat) is oldest := by
  induction is generalizing oldest with
  | nil => rfl
  | cons i is ih =>
      rw [hostLoop, Lobby.hostOf, Player.seat]
      by_cases hocc : (players i).occupied = true
      · simp only [hocc, Bool.true_and, if_true, ih]
      · simp only [hocc, Bool.false_and, Bool.false_eq_true, if_false, ih]

theorem lobby_recalculateHost (ctx : Ctx) :
    (recalculateHost ctx).lobby = { ctx.lobby with
      host := (Lobby.hostOf ctx.lobby.seats slots (0, uint64Max)).1 } := by
  rw [recalculateHost, hostLoop_eq]
  rfl

/-- A player joins in the first free slot. -/
theorem lobby_join {ctx : Ctx} {conn : Conn} {i : Fin maxRoomPlayers}
    (hstate : ctx.room.state = .waiting) (hfind : findPlayerByConn ctx conn = none)
    (hi : (slots.find? fun i => !(ctx.players i).occupied) = some i) :
    (join ctx conn).2.lobby = { ctx.lobby with
      seats := Function.update ctx.lobby.seats i
        (some ⟨UInt32.ofNat (i + 1), ctx.lobby.nextSeq, true, false, some conn⟩)
      nextSeq := ctx.lobby.nextSeq + 1
      count := ctx.lobby.count + 1
      host := (Lobby.hostOf (Function.update ctx.lobby.seats i
        (some ⟨UInt32.ofNat (i + 1), ctx.lobby.nextSeq, true, false, some conn⟩)) slots
          (0, uint64Max)).1 } := by
  have hseats : ∀ p n k, ({ ctx.setPlayer i p with
      nextJoinSeq := n, activePlayerCount := k } : Ctx).lobby.seats =
        Function.update ctx.lobby.seats i p.seat := fun p n k => seats_setPlayer ctx i p
  rw [join, if_neg (not_not.mpr hstate), hfind, hi]
  simp only [Option.isSome_none, Bool.false_eq_true, if_false]
  rw [lobby_emitRoomConfig, lobby_emitEvent, lobby_recalculateHost]
  simp only [hseats]
  rfl

theorem step_join (ctx : Ctx) (conn : Conn) :
    Lobby.Step ctx.lobby (join ctx conn).2.lobby ∨
      Lobby.Joined ctx.lobby (join ctx conn).2.lobby conn := by
  by_cases hstate : ctx.room.state = .waiting
  · cases hfind : findPlayerByConn ctx conn with
    | some j =>
        left
        rw [join, if_neg (not_not.mpr hstate), hfind]
        exact .stay
    | none =>
        cases hi : slots.find? fun i => !(ctx.players i).occupied with
        | none =>
            left
            rw [join, if_neg (not_not.mpr hstate), hfind, hi]
            exact .stay
        | some i =>
            right
            have hfree : (ctx.players i).occupied = false := by simpa using List.find?_some hi
            refine ⟨hstate, findPlayerByConn_eq_none hfind, i, ?_, lobby_join hstate hfind hi⟩
            simp [Ctx.lobby, Player.seat, hfree]
  · left
    rw [join, if_pos hstate]
    exact .stay

theorem lobby_leave (ctx : Ctx) (i : Fin maxRoomPlayers) :
    (leave ctx i).lobby = { ctx.lobby with
      seats := Function.update ctx.lobby.seats i none
      host := (Lobby.hostOf (Function.update ctx.lobby.seats i none) slots (0, uint64Max)).1
      count := if ctx.activePlayerCount > 0 then ctx.activePlayerCount - 1
        else ctx.activePlayerCount } := by
  rw [leave, lobby_recalculateHost]
  have hseats : ∀ k, ({ ctx.setPlayer i Player.zero with activePlayerCount := k } : Ctx).lobby.seats =
      Function.update ctx.lobby.seats i none := fun k => seats_setPlayer ctx i Player.zero
  simp only [hseats]
  rfl

theorem lobby_refreshConfigLock (ctx : Ctx) :
    (refreshConfigLock ctx).lobby = { ctx.lobby with
      locked := slots.any fun j => (ctx.lobby.seats j).any fun t => t.connected && t.ready } := by
  have hany : ∀ j, (ctx.lobby.seats j).any (fun t => t.connected && t.ready) =
      ((ctx.players j).occupied && (ctx.players j).connected && (ctx.players j).ready) := by
    intro j
    simp only [Ctx.lobby, Player.seat]
    split_ifs with h <;> simp [h]
  simp only [hany]
  rfl

theorem lobby_resetEmptyRoom (ctx : Ctx) (nowMs : UInt64) :
    (resetEmptyRoom ctx nowMs).lobby = ⟨fun _ => none, .waiting, 0, false, 0, ctx.nextJoinSeq⟩ := by
  rfl

theorem lobby_dropOut (ctx : Ctx) (i : Fin maxRoomPlayers) (nowMs : UInt64) :
    (dropOut ctx i nowMs).lobby = { ctx.lobby with
      seats := Function.update ctx.lobby.seats i
        ({ ctx.players i with connected := false, connPtr := none } : Player).seat } := by
  rw [dropOut]
  split
  · rw [Lobby.mk.injEq]
    exact ⟨seats_setPlayer ctx i _, rfl, rfl, rfl, rfl, rfl⟩
  · rw [Lobby.mk.injEq]
    exact ⟨seats_setPlayer ctx i _, rfl, rfl, rfl, rfl, rfl⟩

theorem step_disconnect (ctx : Ctx) (conn : Conn) (nowMs : UInt64) :
    Lobby.Step ctx.lobby (disconnect ctx conn nowMs).2.lobby := by
  rw [disconnect]
  simp only
  generalize (if nowMs = 0 then ctx.lastTickMs else nowMs) = now
  split
  · exact .stay
  rename_i i hi
  have hseat := findPlayerByConn_eq_some hi
  split
  · -- the countdown is cancelled
    rename_i hstate
    have hcancel : ∀ c : Ctx, c.room.state = .countdown →
        ({ c with room := c.room.cancelCountdown now } : Ctx).lobby =
          { c.lobby with state := .waiting } := by
      intro c hc
      simp [Ctx.lobby, Room.cancelCountdown, hc]
    have hleave : ({ leave ctx i with room := (leave ctx i).room.cancelCountdown now } : Ctx).lobby =
        { (leave ctx i).lobby with state := .waiting } := hcancel _ hstate
    split
    · exact .reset
    · rename_i hcount
      rw [lobby_emitRoomConfig, lobby_emitEvent, lobby_refreshConfigLock, lobby_resetSpawnEngine,
        hleave, lobby_leave]
      exact .leave (.inr hstate) hseat hcount
  split
  · rename_i hstate
    split
    · exact .reset
    · rename_i hcount
      rw [lobby_emitRoomConfig, lobby_refreshConfigLock, lobby_leave]
      have hstate' : ctx.lobby.state = .waiting := hstate
      have := Lobby.Step.leave (.inl hstate') hseat hcount
      rwa [← hstate'] at this
  · rename_i hcountdown hwaiting
    split
    · rw [lobby_dropOut]
      obtain ⟨hocc, heq⟩ := seat_eq_some hseat
      have hdropped : ({ ctx.players i with connected := false, connPtr := none } : Player).seat =
          some { (⟨(ctx.players i).playerNo, (ctx.players i).joinSeq, (ctx.players i).connected,
            (ctx.players i).ready, some conn⟩ : Seat) with connected := false, conn := none } := by
        simp [Player.seat, hocc]
      rw [hdropped]
      refine .dropOut ?_ hseat
      have hstate : ctx.lobby.state = ctx.room.state := rfl
      rw [hstate]
      cases hs : ctx.room.state with
      | waiting => exact absurd hs hwaiting
      | countdown => exact absurd hs hcountdown
      | playing => exact .inl rfl
      | result => exact .inr rfl
    · have hnext : (dropOut ctx i now).nextJoinSeq = ctx.nextJoinSeq :=
        congrArg Lobby.nextSeq (lobby_dropOut ctx i now)
      simp only [lobby_resetEmptyRoom, hnext]
      exact .reset

/-- **Every call is a step** of the lobby, or a join. -/
theorem exec_step (ctx : Ctx) (op : Op) :
    Lobby.Step ctx.lobby (op.exec ctx).lobby ∨
      ∃ conn, op = .join (some conn) ∧ Lobby.Joined ctx.lobby (op.exec ctx).lobby conn := by
  have hsame : ∀ l, l = ctx.lobby → Lobby.Step ctx.lobby l := by
    rintro l rfl
    exact .stay
  cases op with
  | join conn =>
      cases conn with
      | none => exact .inl .stay
      | some conn => exact (step_join ctx conn).imp id fun h => ⟨conn, rfl, h⟩
  | setLanguage conn lang =>
      cases conn with
      | none => exact .inl .stay
      | some conn => exact .inl (hsame _ (lobby_setLanguage ctx conn lang))
  | setDuration conn minutes =>
      cases conn with
      | none => exact .inl .stay
      | some conn => exact .inl (hsame _ (lobby_setDuration ctx conn minutes))
  | setReady conn =>
      cases conn with
      | none => exact .inl .stay
      | some conn => exact .inl (step_setReady ctx conn)
  | prepareStart db conn =>
      cases conn with
      | none => exact .inl .stay
      | some conn => exact .inl (hsame _ (lobby_prepareStart ctx db conn))
  | abortStart => exact .inl (hsame _ (lobby_abortStart ctx))
  | startGame conn nowMs =>
      cases conn with
      | none => exact .inl .stay
      | some conn => exact .inl (step_startGame ctx conn nowMs)
  | submit conn sentenceId input nowMs =>
      cases conn with
      | none => exact .inl .stay
      | some conn => exact .inl (hsame _ (lobby_submit ctx conn sentenceId input nowMs))
  | disconnect conn nowMs =>
      cases conn with
      | none => exact .inl .stay
      | some conn => exact .inl (step_disconnect ctx conn nowMs)
  | tick nowMs => exact .inl (step_tick ctx nowMs)

/-! ### The invariant -/

namespace Lobby

/-- The host is the connected player that joined first, or nobody. -/
def HostOk (seats : Fin maxRoomPlayers → Option Seat) (host : UInt32) : Prop :=
  (host = 0 ∧ ∀ i s, ¬Connected seats i s) ∨
    ∃ i s, Connected seats i s ∧ host = s.playerNo ∧
      ∀ j t, Connected seats j t → j ≠ i → s.joinSeq < t.joinSeq

/-- The facts the context keeps about its slots, with what carries them from step to step: the
sequence numbers of connected players are different and have been given out. -/
structure Inv (l : Lobby) : Prop where
  count : l.count.toNat = (Finset.univ.filter fun i => (l.seats i).isSome).card
  playerNo : ∀ i s, l.seats i = some s → s.playerNo = UInt32.ofNat (i + 1)
  conns : ∀ i j s t, Connected l.seats i s → Connected l.seats j t → s.conn = t.conn → i = j
  given : ∀ i s, Connected l.seats i s → s.joinSeq < l.nextSeq
  seqs : ∀ i j s t, Connected l.seats i s → Connected l.seats j t → s.joinSeq = t.joinSeq → i = j
  present : l.state = .waiting ∨ l.state = .countdown →
    ∀ i s, l.seats i = some s → s.connected = true
  host : l.state = .waiting ∨ l.state = .countdown → HostOk l.seats l.host
  locked : l.state = .waiting ∨ l.state = .countdown →
    (l.locked = true ↔ ∃ i s, Connected l.seats i s ∧ s.ready = true)
  countdown : l.state = .countdown →
    minRoomPlayers ≤ slots.countP (fun i => (l.seats i).any (·.connected)) ∧
      ∀ i s, Connected l.seats i s → s.ready = true

/-- A slot without a connected player does not matter to the search. -/
theorem hostOf_skip {seats : Fin maxRoomPlayers → Option Seat} {i : Fin maxRoomPlayers}
    {is : List (Fin maxRoomPlayers)} {oldest r : UInt32 × UInt64} (hi : ∀ t, ¬Connected seats i t)
    (h : (r = oldest ∧ ∀ j ∈ is, ∀ s, Connected seats j s → oldest.2 ≤ s.joinSeq) ∨
      ∃ j ∈ is, ∃ s, Connected seats j s ∧ r = (s.playerNo, s.joinSeq) ∧ s.joinSeq < oldest.2 ∧
        ∀ k ∈ is, ∀ t, Connected seats k t → s.joinSeq ≤ t.joinSeq) :
    (r = oldest ∧ ∀ j ∈ i :: is, ∀ s, Connected seats j s → oldest.2 ≤ s.joinSeq) ∨
      ∃ j ∈ i :: is, ∃ s, Connected seats j s ∧ r = (s.playerNo, s.joinSeq) ∧
        s.joinSeq < oldest.2 ∧ ∀ k ∈ i :: is, ∀ t, Connected seats k t → s.joinSeq ≤ t.joinSeq := by
  rcases h with ⟨heq, hrest⟩ | ⟨j, hj, s, hs, heq, hlt, hmin⟩
  · exact .inl ⟨heq, List.forall_mem_cons.mpr ⟨fun s hs => absurd hs (hi s), hrest⟩⟩
  · exact .inr ⟨j, by simp [hj], s, hs, heq, hlt,
      List.forall_mem_cons.mpr ⟨fun t ht => absurd ht (hi t), hmin⟩⟩

/-- The search keeps the oldest player it has met. -/
theorem hostOf_spec (seats : Fin maxRoomPlayers → Option Seat) (is : List (Fin maxRoomPlayers))
    (oldest : UInt32 × UInt64) :
    (hostOf seats is oldest = oldest ∧
        ∀ i ∈ is, ∀ s, Connected seats i s → oldest.2 ≤ s.joinSeq) ∨
      ∃ i ∈ is, ∃ s, Connected seats i s ∧ hostOf seats is oldest = (s.playerNo, s.joinSeq) ∧
        s.joinSeq < oldest.2 ∧ ∀ j ∈ is, ∀ t, Connected seats j t → s.joinSeq ≤ t.joinSeq := by
  induction is generalizing oldest with
  | nil => exact .inl ⟨rfl, by simp⟩
  | cons i is ih =>
      rw [hostOf]
      split
      · rename_i s hs
        by_cases hconn : s.connected = true
        · rw [if_pos hconn]
          by_cases hlt : s.joinSeq < oldest.2
          · rw [if_pos hlt]
            right
            rcases ih (s.playerNo, s.joinSeq) with ⟨heq, hrest⟩ | ⟨j, hj, t, ht, heq, htlt, hmin⟩
            · refine ⟨i, by simp, s, ⟨hs, hconn⟩, heq, hlt, ?_⟩
              intro j hj t ht
              rcases List.mem_cons.mp hj with rfl | hj
              · rw [Option.some.inj (hs.symm.trans ht.1)]
                exact UInt64.le_refl _
              · exact hrest j hj t ht
            · refine ⟨j, by simp [hj], t, ht, heq, UInt64.lt_trans htlt hlt, ?_⟩
              intro k hk u hu
              rcases List.mem_cons.mp hk with rfl | hk
              · rw [← Option.some.inj (hs.symm.trans hu.1)]
                exact UInt64.le_of_lt htlt
              · exact hmin k hk u hu
          · rw [if_neg hlt]
            have hle := UInt64.not_lt.mp hlt
            rcases ih oldest with ⟨heq, hrest⟩ | ⟨j, hj, t, ht, heq, htlt, hmin⟩
            · refine .inl ⟨heq, ?_⟩
              intro j hj t ht
              rcases List.mem_cons.mp hj with rfl | hj
              · rwa [← Option.some.inj (hs.symm.trans ht.1)]
              · exact hrest j hj t ht
            · refine .inr ⟨j, by simp [hj], t, ht, heq, htlt, ?_⟩
              intro k hk u hu
              rcases List.mem_cons.mp hk with rfl | hk
              · rw [← Option.some.inj (hs.symm.trans hu.1)]
                exact UInt64.le_of_lt (UInt64.lt_of_lt_of_le htlt hle)
              · exact hmin k hk u hu
        · rw [if_neg hconn]
          exact hostOf_skip (fun t ht => hconn (Option.some.inj (hs.symm.trans ht.1) ▸ ht.2))
            (ih oldest)
      · rename_i hs
        exact hostOf_skip (fun t ht => absurd (hs.symm.trans ht.1) (by simp)) (ih oldest)

/-- **The search finds the host**, if no connected player has the number it starts from. -/
theorem hostOk_hostOf {seats : Fin maxRoomPlayers → Option Seat}
    (hmax : ∀ i s, Connected seats i s → s.joinSeq < uint64Max)
    (hseqs : ∀ i j s t, Connected seats i s → Connected seats j t → s.joinSeq = t.joinSeq → i = j) :
    HostOk seats (hostOf seats slots (0, uint64Max)).1 := by
  rcases hostOf_spec seats slots (0, uint64Max) with ⟨heq, hnone⟩ | ⟨i, -, s, hs, heq, -, hmin⟩
  · left
    rw [heq]
    refine ⟨rfl, fun i s hs => ?_⟩
    exact UInt64.not_lt.mpr (hnone i (List.mem_finRange i) s hs) (hmax i s hs)
  · right
    refine ⟨i, s, hs, by rw [heq], fun j t ht hji => ?_⟩
    refine UInt64.lt_of_le_of_ne (hmin j (List.mem_finRange j) t ht) fun hst => ?_
    exact hji (hseqs j i t s ht hs hst.symm)

theorem update_eq_some_iff {seats : Fin maxRoomPlayers → Option Seat} {i j : Fin maxRoomPlayers}
    {v : Option Seat} {s : Seat} :
    Function.update seats i v j = some s ↔ (j = i ∧ v = some s) ∨ (j ≠ i ∧ seats j = some s) := by
  by_cases h : j = i
  · subst h
    simp
  · simp [h]

/-- The number of occupied slots after a slot has been emptied or taken. -/
theorem card_update (seats : Fin maxRoomPlayers → Option Seat) (i : Fin maxRoomPlayers)
    (s : Seat) : (Finset.univ.filter fun j => (Function.update seats i (some s) j).isSome).card =
      (Finset.univ.filter fun j => (Function.update seats i none j).isSome).card + 1 := by
  have hnotMem : i ∉ Finset.univ.filter fun j => (Function.update seats i none j).isSome := by
    simp
  rw [← Finset.card_insert_of_notMem hnotMem]
  congr 1
  ext j
  by_cases h : j = i
  · subst h
    simp
  · simp [h]

theorem card_seats_le (seats : Fin maxRoomPlayers → Option Seat) :
    (Finset.univ.filter fun i => (seats i).isSome).card ≤ maxRoomPlayers :=
  (Finset.card_filter_le _ _).trans (by simp)

theorem Inv.init (nextSeq : UInt64) : Inv ⟨fun _ => none, .waiting, 0, false, 0, nextSeq⟩ := by
  have hnone : ∀ i s, ¬Connected (fun _ : Fin maxRoomPlayers => (none : Option Seat)) i s := by
    intro i s hs
    cases hs.1
  refine ⟨by simp, by simp, ?_, ?_, ?_, by simp, fun _ => .inl ⟨rfl, hnone⟩, ?_, by simp⟩
  · exact fun i j s t hs => absurd hs (hnone i s)
  · exact fun i s hs => absurd hs (hnone i s)
  · exact fun i j s t hs => absurd hs (hnone i s)
  · simp only [Bool.false_eq_true, false_iff]
    rintro - ⟨i, s, hs, -⟩
    exact hnone i s hs

theorem connected_update_iff {seats : Fin maxRoomPlayers → Option Seat} {i j : Fin maxRoomPlayers}
    {v : Option Seat} {s : Seat} : Connected (Function.update seats i v) j s ↔
      (j = i ∧ v = some s ∧ s.connected = true) ∨ (j ≠ i ∧ Connected seats j s) := by
  rw [Connected, update_eq_some_iff, Connected]
  tauto

/-- A newcomer whose value of `f` no connected player has leaves the values of `f` different. -/
theorem injective_join {α : Type} {f : Seat → α} {seats : Fin maxRoomPlayers → Option Seat}
    {i : Fin maxRoomPlayers} {p : Seat}
    (h : ∀ j k s t, Connected seats j s → Connected seats k t → f s = f t → j = k)
    (hnew : ∀ j s, Connected seats j s → f s ≠ f p) :
    ∀ j k s t, Connected (Function.update seats i (some p)) j s →
      Connected (Function.update seats i (some p)) k t → f s = f t → j = k := by
  intro j k s t hs ht heq
  rcases connected_update_iff.mp hs with ⟨hj, hps, -⟩ | ⟨-, hs⟩
  · rcases connected_update_iff.mp ht with ⟨hk, -, -⟩ | ⟨-, ht⟩
    · rw [hj, hk]
    · rw [Option.some.inj hps] at hnew
      exact absurd heq.symm (hnew k t ht)
  · rcases connected_update_iff.mp ht with ⟨-, hpt, -⟩ | ⟨-, ht⟩
    · rw [Option.some.inj hpt] at hnew
      exact absurd heq (hnew j s hs)
    · exact h j k s t hs ht heq

/-- A player that joins is the last one in the order of joining. -/
theorem Inv.joined {l l' : Lobby} {conn : Conn} (h : Inv l) (hj : Joined l l' conn)
    (hseq : l.nextSeq < uint64Max) : Inv l' := by
  obtain ⟨hwaiting, hfresh, i, hfree, rfl⟩ := hj
  have hnext : (l.nextSeq + 1).toNat = l.nextSeq.toNat + 1 := by
    have hmax : uint64Max.toNat = 2 ^ 64 - 1 := by decide
    rw [UInt64.lt_iff_toNat_lt] at hseq
    rw [UInt64.toNat_add]
    simp only [UInt64.reduceToNat]
    omega
  obtain ⟨p, hp⟩ : ∃ p : Seat, p = ⟨UInt32.ofNat (i + 1), l.nextSeq, true, false, some conn⟩ :=
    ⟨_, rfl⟩
  rw [← hp]
  have hgiven : ∀ j s, Connected (Function.update l.seats i (some p)) j s →
      s.joinSeq ≤ l.nextSeq := by
    intro j s hs
    rcases connected_update_iff.mp hs with ⟨-, hps, -⟩ | ⟨-, hs⟩
    · rw [← Option.some.inj hps, hp]
      exact UInt64.le_refl _
    · exact UInt64.le_of_lt (h.given j s hs)
  have hseqs := injective_join (f := Seat.joinSeq) (i := i) (p := p) h.seqs (by
    intro j s hs
    rw [hp]
    exact UInt64.ne_of_lt (h.given j s hs))
  constructor
  case count =>
    have hsame : Function.update l.seats i none = l.seats := by
      rw [← hfree]
      exact Function.update_eq_self i l.seats
    have hle := card_seats_le (Function.update l.seats i (some p))
    rw [card_update, hsame, ← h.count] at hle
    have hmax : maxRoomPlayers = 8 := rfl
    simp only
    rw [card_update, hsame, ← h.count, UInt32.toNat_add]
    simp only [UInt32.reduceToNat]
    omega
  case playerNo =>
    intro j s hs
    rcases update_eq_some_iff.mp hs with ⟨rfl, hps⟩ | ⟨-, hs⟩
    · rw [← Option.some.inj hps, hp]
    · exact h.playerNo j s hs
  case conns =>
    refine injective_join (f := Seat.conn) h.conns fun j s hs => ?_
    rw [hp]
    exact hfresh j s hs.1
  case given =>
    intro j s hs
    have hle := UInt64.le_iff_toNat_le.mp (hgiven j s hs)
    rw [UInt64.lt_iff_toNat_lt]
    simp only
    omega
  case seqs => exact hseqs
  case present =>
    intro _ j s hs
    rcases update_eq_some_iff.mp hs with ⟨rfl, hps⟩ | ⟨-, hs⟩
    · rw [← Option.some.inj hps, hp]
    · exact h.present (.inl hwaiting) j s hs
  case host =>
    intro _
    exact hostOk_hostOf (fun j s hs => UInt64.lt_of_le_of_lt (hgiven j s hs) hseq) hseqs
  case locked =>
    intro _
    refine (h.locked (.inl hwaiting)).trans ⟨?_, ?_⟩
    · rintro ⟨j, s, hs, hready⟩
      have hne : j ≠ i := by
        rintro rfl
        exact absurd (hfree.symm.trans hs.1) (by simp)
      exact ⟨j, s, connected_update_iff.mpr (.inr ⟨hne, hs⟩), hready⟩
    · rintro ⟨j, s, hs, hready⟩
      rcases connected_update_iff.mp hs with ⟨-, hps, -⟩ | ⟨-, hs⟩
      · rw [← Option.some.inj hps, hp] at hready
        exact absurd hready (by simp)
      · exact ⟨j, s, hs, hready⟩
  case countdown =>
    intro hstate
    exact absurd (hwaiting.symm.trans hstate) (by simp)

/-- The number of occupied slots does not change with the player in one. -/
theorem card_reseat {seats : Fin maxRoomPlayers → Option Seat} {i : Fin maxRoomPlayers} {s : Seat}
    (t : Seat) (hs : seats i = some s) :
    (Finset.univ.filter fun j => (Function.update seats i (some t) j).isSome).card =
      (Finset.univ.filter fun j => (seats j).isSome).card := by
  have hsame : Function.update seats i (some s) = seats := by
    rw [← hs]
    exact Function.update_eq_self i seats
  rw [card_update, ← card_update seats i s, hsame]

theorem Inv.ready {l : Lobby} {i : Fin maxRoomPlayers} {s : Seat} (h : Inv l)
    (hwaiting : l.state = .waiting) (hs : l.seats i = some s) :
    Inv { l with seats := Function.update l.seats i (some { s with ready := true })
                 locked := true } := by
  have hconn := h.present (.inl hwaiting) i s hs
  -- every connected player was connected before, and differs in `ready` at most
  have hback : ∀ j t, Connected (Function.update l.seats i (some { s with ready := true })) j t →
      ∃ u, Connected l.seats j u ∧ u.conn = t.conn ∧ u.joinSeq = t.joinSeq ∧
        u.playerNo = t.playerNo := by
    intro j t ht
    rcases connected_update_iff.mp ht with ⟨rfl, heq, -⟩ | ⟨-, ht⟩
    · rw [← Option.some.inj heq]
      exact ⟨s, ⟨hs, hconn⟩, rfl, rfl, rfl⟩
    · exact ⟨t, ht, rfl, rfl, rfl⟩
  have hforth : ∀ j u, Connected l.seats j u →
      ∃ t, Connected (Function.update l.seats i (some { s with ready := true })) j t ∧
        u.joinSeq = t.joinSeq ∧ u.playerNo = t.playerNo := by
    intro j u hu
    by_cases hji : j = i
    · subst hji
      rw [← Option.some.inj (hs.symm.trans hu.1)]
      exact ⟨_, connected_update_iff.mpr (.inl ⟨rfl, rfl, hconn⟩), rfl, rfl⟩
    · exact ⟨u, connected_update_iff.mpr (.inr ⟨hji, hu⟩), rfl, rfl⟩
  constructor
  case count => exact h.count.trans (card_reseat _ hs).symm
  case playerNo =>
    intro j t ht
    rcases update_eq_some_iff.mp ht with ⟨rfl, heq⟩ | ⟨-, ht⟩
    · rw [← Option.some.inj heq]
      exact h.playerNo j s hs
    · exact h.playerNo j t ht
  case conns =>
    intro j k t u ht hu heq
    obtain ⟨t', ht', htconn, -, -⟩ := hback j t ht
    obtain ⟨u', hu', huconn, -, -⟩ := hback k u hu
    exact h.conns j k t' u' ht' hu' ((htconn.trans heq).trans huconn.symm)
  case given =>
    intro j t ht
    obtain ⟨t', ht', -, htseq, -⟩ := hback j t ht
    rw [← htseq]
    exact h.given j t' ht'
  case seqs =>
    intro j k t u ht hu heq
    obtain ⟨t', ht', -, htseq, -⟩ := hback j t ht
    obtain ⟨u', hu', -, huseq, -⟩ := hback k u hu
    exact h.seqs j k t' u' ht' hu' ((htseq.trans heq).trans huseq.symm)
  case present =>
    intro _ j t ht
    rcases update_eq_some_iff.mp ht with ⟨-, heq⟩ | ⟨-, ht⟩
    · rw [← Option.some.inj heq]
      exact hconn
    · exact h.present (.inl hwaiting) j t ht
  case host =>
    intro _
    rcases h.host (.inl hwaiting) with ⟨-, hnone⟩ | ⟨j, u, hu, hhost, hmin⟩
    · exact absurd ⟨hs, hconn⟩ (hnone i s)
    · obtain ⟨t, ht, hseq, hno⟩ := hforth j u hu
      refine .inr ⟨j, t, ht, hhost.trans hno, fun k v hv hkj => ?_⟩
      obtain ⟨v', hv', -, hvseq, -⟩ := hback k v hv
      rw [← hseq, ← hvseq]
      exact hmin k v' hv' hkj
  case locked =>
    intro _
    exact iff_of_true rfl ⟨i, _, connected_update_iff.mpr (.inl ⟨rfl, rfl, hconn⟩), rfl⟩
  case countdown =>
    intro hstate
    exact absurd (hwaiting.symm.trans hstate) (by simp)

theorem Inv.lt_uint64Max {l : Lobby} (h : Inv l) {i : Fin maxRoomPlayers} {s : Seat}
    (hs : Connected l.seats i s) : s.joinSeq < uint64Max := by
  have hlt := UInt64.lt_iff_toNat_lt.mp (h.given i s hs)
  have hnext := l.nextSeq.toNat_lt
  have hmax : uint64Max.toNat = 2 ^ 64 - 1 := by decide
  rw [UInt64.lt_iff_toNat_lt]
  omega

/-- A slot that is emptied or given up takes one player from the connected ones. -/
theorem connected_vacate {seats : Fin maxRoomPlayers → Option Seat} {i j : Fin maxRoomPlayers}
    {v : Option Seat} {s : Seat} (hv : ∀ t, v = some t → t.connected = false) :
    Connected (Function.update seats i v) j s ↔ j ≠ i ∧ Connected seats j s := by
  rw [connected_update_iff]
  constructor
  · rintro (⟨-, heq, hconn⟩ | h)
    · rw [hv s heq] at hconn
      cases hconn
    · exact h
  · exact .inr

theorem Inv.leave {l : Lobby} {i : Fin maxRoomPlayers} {s : Seat} (h : Inv l)
    (hstate : l.state = .waiting ∨ l.state = .countdown) (hs : l.seats i = some s) :
    Inv { l with
      seats := Function.update l.seats i none
      state := .waiting
      host := (hostOf (Function.update l.seats i none) slots (0, uint64Max)).1
      locked := slots.any fun j =>
        (Function.update l.seats i none j).any fun t => t.connected && t.ready
      count := if l.count > 0 then l.count - 1 else l.count } := by
  have hback : ∀ j t, Connected (Function.update l.seats i none) j t → Connected l.seats j t :=
    fun j t ht => ((connected_vacate (by simp)).mp ht).2
  have hseqs : ∀ j k t u, Connected (Function.update l.seats i none) j t →
      Connected (Function.update l.seats i none) k u → t.joinSeq = u.joinSeq → j = k :=
    fun j k t u ht hu => h.seqs j k t u (hback j t ht) (hback k u hu)
  constructor
  case count =>
    have hcard := card_update l.seats i s
    rw [← hs, Function.update_eq_self, ← h.count] at hcard
    have hpos : l.count > 0 := by
      rw [gt_iff_lt, UInt32.lt_iff_toNat_lt]
      simp only [UInt32.reduceToNat]
      omega
    have hone : (1 : UInt32) ≤ l.count := by
      rw [UInt32.le_iff_toNat_le]
      simp only [UInt32.reduceToNat]
      omega
    simp only [if_pos hpos]
    rw [UInt32.toNat_sub_of_le _ _ hone, hcard]
    simp
  case playerNo =>
    intro j t ht
    rcases update_eq_some_iff.mp ht with ⟨-, heq⟩ | ⟨-, ht⟩
    · cases heq
    · exact h.playerNo j t ht
  case conns => exact fun j k t u ht hu => h.conns j k t u (hback j t ht) (hback k u hu)
  case given => exact fun j t ht => h.given j t (hback j t ht)
  case seqs => exact hseqs
  case present =>
    intro _ j t ht
    rcases update_eq_some_iff.mp ht with ⟨-, heq⟩ | ⟨-, ht⟩
    · cases heq
    · exact h.present hstate j t ht
  case host =>
    intro _
    exact hostOk_hostOf (fun j t ht => h.lt_uint64Max (hback j t ht)) hseqs
  case locked =>
    intro _
    simp only [List.any_eq_true, List.mem_finRange, true_and, Option.any_eq_true,
      Bool.and_eq_true, Connected]
    constructor
    · rintro ⟨j, t, ht, hconn, hready⟩
      exact ⟨j, t, ⟨ht, hconn⟩, hready⟩
    · rintro ⟨j, t, ⟨ht, hconn⟩, hready⟩
      exact ⟨j, t, ht, hconn, hready⟩
  case countdown =>
    intro hcountdown
    cases hcountdown

theorem Inv.dropOut {l : Lobby} {i : Fin maxRoomPlayers} {s : Seat} (h : Inv l)
    (hstate : l.state = .playing ∨ l.state = .result) (hs : l.seats i = some s) :
    Inv { l with
      seats := Function.update l.seats i (some { s with connected := false, conn := none }) } := by
  have hback : ∀ j t, Connected (Function.update l.seats i
      (some { s with connected := false, conn := none })) j t → Connected l.seats j t := by
    intro j t ht
    refine ((connected_vacate ?_).mp ht).2
    rintro u hu
    rw [← Option.some.inj hu]
  have hplaying : ¬(l.state = .waiting ∨ l.state = .countdown) := by
    rcases hstate with hstate | hstate <;> simp [hstate]
  constructor
  case count => exact h.count.trans (card_reseat _ hs).symm
  case playerNo =>
    intro j t ht
    rcases update_eq_some_iff.mp ht with ⟨rfl, heq⟩ | ⟨-, ht⟩
    · rw [← Option.some.inj heq]
      exact h.playerNo j s hs
    · exact h.playerNo j t ht
  case conns => exact fun j k t u ht hu => h.conns j k t u (hback j t ht) (hback k u hu)
  case given => exact fun j t ht => h.given j t (hback j t ht)
  case seqs => exact fun j k t u ht hu => h.seqs j k t u (hback j t ht) (hback k u hu)
  case present => exact fun hlobby => absurd hlobby hplaying
  case host => exact fun hlobby => absurd hlobby hplaying
  case locked => exact fun hlobby => absurd hlobby hplaying
  case countdown => exact fun hcountdown => absurd (.inr hcountdown) hplaying

/-- **The invariant is kept** by every step. -/
theorem Inv.step {l l' : Lobby} (h : Inv l) (hstep : Step l l') : Inv l' := by
  cases hstep with
  | stay => exact h
  | ready hwaiting hs => exact h.ready hwaiting hs
  | countdown hwaiting htwo hall =>
      exact ⟨h.count, h.playerNo, h.conns, h.given, h.seqs, fun _ => h.present (.inl hwaiting),
        fun _ => h.host (.inl hwaiting), fun _ => h.locked (.inl hwaiting),
        fun _ => ⟨htwo, hall⟩⟩
  | leave hstate hs _ => exact h.leave hstate hs
  | reset => exact Inv.init l.nextSeq
  | dropOut hstate hs => exact h.dropOut hstate hs
  | progress hstate =>
      rename_i state
      have hplaying : ¬(state = .waiting ∨ state = .countdown) := by
        rcases hstate with ⟨-, rfl⟩ | ⟨-, rfl⟩ <;> simp
      exact ⟨h.count, h.playerNo, h.conns, h.given, h.seqs, fun hl => absurd hl hplaying,
        fun hl => absurd hl hplaying, fun hl => absurd hl hplaying,
        fun hc => absurd (.inr hc) hplaying⟩

end Lobby

/-! ### Runs -/

/-- The player in slot `i` is connected. -/
def Ctx.ConnectedAt (ctx : Ctx) (i : Fin maxRoomPlayers) : Prop :=
  (ctx.players i).occupied = true ∧ (ctx.players i).connected = true

/-- At least two players are connected, and all of them are ready. -/
def Ctx.AllReady (ctx : Ctx) : Prop :=
  minRoomPlayers ≤ connectedCount ctx ∧ ∀ i, ctx.ConnectedAt i → (ctx.players i).ready = true

/-- The host is the connected player that joined first, or nobody. -/
def Ctx.HostIsOldest (ctx : Ctx) : Prop :=
  (ctx.room.hostPlayerNo = 0 ∧ ∀ i, ¬ctx.ConnectedAt i) ∨
    ∃ i, ctx.ConnectedAt i ∧ ctx.room.hostPlayerNo = (ctx.players i).playerNo ∧
      ∀ j, ctx.ConnectedAt j → j ≠ i → (ctx.players i).joinSeq < (ctx.players j).joinSeq

/-- What a context says about its slots is right. -/
structure Roster (ctx : Ctx) : Prop where
  count : ctx.activePlayerCount.toNat =
    (Finset.univ.filter fun i => (ctx.players i).occupied = true).card
  playerNo : ∀ i, (ctx.players i).occupied = true → (ctx.players i).playerNo.toNat = i + 1
  conns : ∀ i j, ctx.ConnectedAt i → ctx.ConnectedAt j →
    (ctx.players i).connPtr = (ctx.players j).connPtr → i = j
  host : ctx.room.state = .waiting ∨ ctx.room.state = .countdown → ctx.HostIsOldest
  locked : ctx.room.state = .waiting ∨ ctx.room.state = .countdown →
    (ctx.room.languageLocked = true ↔ ∃ i, ctx.ConnectedAt i ∧ (ctx.players i).ready = true)
  countdown : ctx.room.state = .countdown → ctx.AllReady

theorem isSome_seat (p : Player) : p.seat.isSome = p.occupied := by
  rw [Player.seat]
  split_ifs with h <;> simp [h]

/-- The seat of an occupied slot. -/
theorem seats_of_occupied {ctx : Ctx} {i : Fin maxRoomPlayers} (h : (ctx.players i).occupied = true) :
    ctx.lobby.seats i = some ⟨(ctx.players i).playerNo, (ctx.players i).joinSeq,
      (ctx.players i).connected, (ctx.players i).ready, (ctx.players i).connPtr⟩ := by
  simp only [Ctx.lobby, Player.seat, h, if_true]

theorem Ctx.ConnectedAt.connected {ctx : Ctx} {i : Fin maxRoomPlayers} (h : ctx.ConnectedAt i) :
    Lobby.Connected ctx.lobby.seats i ⟨(ctx.players i).playerNo, (ctx.players i).joinSeq,
      (ctx.players i).connected, (ctx.players i).ready, (ctx.players i).connPtr⟩ :=
  ⟨seats_of_occupied h.1, h.2⟩

theorem connectedAt_of_connected {ctx : Ctx} {i : Fin maxRoomPlayers} {s : Seat}
    (h : Lobby.Connected ctx.lobby.seats i s) :
    ctx.ConnectedAt i ∧ s = ⟨(ctx.players i).playerNo, (ctx.players i).joinSeq,
      (ctx.players i).connected, (ctx.players i).ready, (ctx.players i).connPtr⟩ := by
  obtain ⟨hocc, rfl⟩ := seat_eq_some h.1
  exact ⟨⟨hocc, h.2⟩, rfl⟩

/-- The invariant of the lobby, read in the context. -/
theorem roster_of_inv {ctx : Ctx} (h : Lobby.Inv ctx.lobby) : Roster ctx := by
  constructor
  case count =>
    have := h.count
    simp only [Ctx.lobby, isSome_seat] at this
    exact this
  case playerNo =>
    intro i hi
    have hno : (ctx.players i).playerNo = UInt32.ofNat (i + 1) :=
      h.playerNo i _ (seats_of_occupied hi)
    have hlt : (i : ℕ) < 8 := i.isLt
    rw [hno, UInt32.toNat_ofNat']
    omega
  case conns => exact fun i j hi hj heq => h.conns i j _ _ hi.connected hj.connected heq
  case host =>
    intro hstate
    rcases h.host hstate with ⟨hzero, hnone⟩ | ⟨i, s, hs, hhost, hmin⟩
    · exact .inl ⟨hzero, fun i hi => hnone i _ hi.connected⟩
    · obtain ⟨hi, rfl⟩ := connectedAt_of_connected hs
      exact .inr ⟨i, hi, hhost, fun j hj hji => hmin j _ hj.connected hji⟩
  case locked =>
    intro hstate
    refine (h.locked hstate).trans ⟨?_, ?_⟩
    · rintro ⟨i, s, hs, hready⟩
      obtain ⟨hi, rfl⟩ := connectedAt_of_connected hs
      exact ⟨i, hi, hready⟩
    · rintro ⟨i, hi, hready⟩
      exact ⟨i, _, hi.connected, hready⟩
  case countdown =>
    intro hstate
    obtain ⟨htwo, hall⟩ := h.countdown hstate
    refine ⟨?_, fun i hi => hall i _ hi.connected⟩
    simpa only [Ctx.lobby, any_connected_seat, connectedCount] using htwo

/-- The room takes a player with this connection. -/
def Admits (ctx : Ctx) (conn : Conn) : Prop :=
  ctx.room.state = .waiting ∧ findPlayerByConn ctx conn = none ∧
    ∃ i, (ctx.players i).occupied = false

/-- No call of the run lets a player join with `UINT64_MAX`. -/
def InSequence : Ctx → List Op → Prop
  | _, [] => True
  | ctx, op :: ops =>
      (∀ conn, op = .join (some conn) → Admits ctx conn → ctx.nextJoinSeq ≠ uint64Max) ∧
        InSequence (op.exec ctx) ops

theorem findPlayerByConn_none_of_fresh {ctx : Ctx} {conn : Conn}
    (h : ∀ i s, ctx.lobby.seats i = some s → s.conn ≠ some conn) :
    findPlayerByConn ctx conn = none := by
  refine List.find?_eq_none.mpr fun i _ hi => ?_
  simp only [Bool.and_eq_true, decide_eq_true_eq] at hi
  exact h i _ (seats_of_occupied hi.1) hi.2

theorem admits_of_joined {ctx : Ctx} {l : Lobby} {conn : Conn} (h : Lobby.Joined ctx.lobby l conn) :
    Admits ctx conn := by
  obtain ⟨hwaiting, hfresh, i, hfree, -⟩ := h
  refine ⟨hwaiting, findPlayerByConn_none_of_fresh hfresh, i, ?_⟩
  have := isSome_seat (ctx.players i)
  rw [← this]
  exact Option.isSome_eq_false_iff.mpr (Option.isNone_iff_eq_none.mpr hfree)

theorem lt_uint64Max_of_ne {n : UInt64} (h : n ≠ uint64Max) : n < uint64Max := by
  have hmax : uint64Max.toNat = 2 ^ 64 - 1 := by decide
  have hlt := n.toNat_lt
  have hne : n.toNat ≠ uint64Max.toNat := fun heq => h (UInt64.toNat_inj.mp heq)
  rw [UInt64.lt_iff_toNat_lt]
  omega

theorem inv_exec {ctx : Ctx} {op : Op} (h : Lobby.Inv ctx.lobby)
    (hop : ∀ conn, op = .join (some conn) → Admits ctx conn → ctx.nextJoinSeq ≠ uint64Max) :
    Lobby.Inv (op.exec ctx).lobby := by
  rcases exec_step ctx op with hstep | ⟨conn, hjoin, hjoined⟩
  · exact h.step hstep
  · exact h.joined hjoined (lt_uint64Max_of_ne (hop conn hjoin (admits_of_joined hjoined)))

theorem inv_run {ctx : Ctx} {ops : List Op} (h : Lobby.Inv ctx.lobby) (hops : InSequence ctx ops) :
    Lobby.Inv (run ctx ops).lobby := by
  induction ops generalizing ctx with
  | nil => exact h
  | cons op ops ih => exact ih (inv_exec h hops.1) hops.2

/-- A game starts at the end of a countdown. -/
theorem playing_from_countdown {ctx : Ctx} {op : Op} (h : ctx.room.state ≠ .playing)
    (hplaying : (op.exec ctx).room.state = .playing) : ctx.room.state = .countdown := by
  have hstate : (op.exec ctx).lobby.state = .playing := hplaying
  rcases exec_step ctx op with hstep | ⟨conn, -, hwaiting, -, i, -, heq⟩
  · generalize (op.exec ctx).lobby = l' at hstep hstate
    have hlobby : ctx.lobby.state = ctx.room.state := rfl
    generalize ctx.lobby = l at hstep hlobby
    cases hstep with
    | stay => exact absurd (hlobby.symm.trans hstate) h
    | ready _ _ => exact absurd (hlobby.symm.trans hstate) h
    | countdown _ _ _ => cases hstate
    | leave _ _ _ => cases hstate
    | reset => cases hstate
    | dropOut _ _ => exact absurd (hlobby.symm.trans hstate) h
    | progress hmoved =>
        rcases hmoved with ⟨hcountdown, -⟩ | ⟨-, hresult⟩
        · exact hlobby.symm.trans hcountdown
        · exact absurd (hresult.symm.trans hstate) (by simp)
  · rw [heq] at hstate
    exact absurd (hwaiting.symm.trans hstate) (by simp)

/-- **The roster is right** after every run in which no player joins with `UINT64_MAX`, and a game
starts from a state in which everybody is ready. -/
theorem roster_of_reachable (roomId : UInt64) (profile : Profile) (ops : List Op)
    (h : InSequence (Ctx.init roomId profile) ops) :
    Roster (run (Ctx.init roomId profile) ops) ∧
      ∀ op : Op, (run (Ctx.init roomId profile) ops).room.state ≠ .playing →
        (op.exec (run (Ctx.init roomId profile) ops)).room.state = .playing →
          (run (Ctx.init roomId profile) ops).room.state = .countdown ∧
            (run (Ctx.init roomId profile) ops).AllReady := by
  have hinit : Lobby.Inv (Ctx.init roomId profile).lobby := Lobby.Inv.init 1
  have hroster := roster_of_inv (inv_run hinit h)
  refine ⟨hroster, fun op hbefore hafter => ?_⟩
  have hcountdown := playing_from_countdown hbefore hafter
  exact ⟨hcountdown, hroster.countdown hcountdown⟩

/-- Three minutes in three phases. -/
def sampleProfile : Profile where
  countdownMs := 3000
  randomSeed := 1
  playScorePerSec := 1
  accuracyScoreMultiplier := 1
  phases := fun _ => ⟨60000, 10000, 10⟩

/-- Two players join, and the first one leaves. -/
def sampleRun : List Op := [.join (some 1), .join (some 2), .disconnect (some 1) 5]

theorem roster_of_reachable_sample :
    Roster (run (Ctx.init 1 sampleProfile) sampleRun) ∧
      (run (Ctx.init 1 sampleProfile) sampleRun).room.hostPlayerNo = 2 := by
  have hsample : InSequence (Ctx.init 1 sampleProfile) sampleRun := by
    refine ⟨fun _ _ _ => by decide, fun _ _ _ => by decide, fun conn h => ?_, trivial⟩
    cases h
  exact ⟨(roster_of_reachable 1 sampleProfile sampleRun hsample).1, rfl⟩

/-! ### The last sequence number -/

namespace Lobby

/-- The lobby of an empty room. -/
def empty (nextSeq : UInt64) : Lobby := ⟨fun _ => none, .waiting, 0, false, 0, nextSeq⟩

/-- The slots of a room with one player. -/
def singleSeats (conn : Conn) (seq : UInt64) : Fin maxRoomPlayers → Option Seat :=
  Function.update (fun _ => none) 0 (some ⟨1, seq, true, false, some conn⟩)

/-- The lobby of a room with one player. -/
def single (conn : Conn) (seq : UInt64) : Lobby where
  seats := singleSeats conn seq
  state := .waiting
  host := (hostOf (singleSeats conn seq) slots (0, uint64Max)).1
  locked := false
  count := 1
  nextSeq := seq + 1

end Lobby

theorem lobby_join_empty {ctx : Ctx} {seq : UInt64} (h : ctx.lobby = .empty seq) (conn : Conn) :
    (join ctx conn).2.lobby = .single conn seq := by
  have hseats : ctx.lobby.seats = fun _ => none := congrArg Lobby.seats h
  have hfree : ∀ i, (ctx.players i).occupied = false := by
    intro i
    rw [← isSome_seat]
    exact congrArg Option.isSome (congrFun hseats i)
  have hfind : findPlayerByConn ctx conn = none := by
    refine findPlayerByConn_none_of_fresh fun i s hs => ?_
    rw [hseats] at hs
    cases hs
  have hi : (slots.find? fun i => !(ctx.players i).occupied) = some 0 := by
    simp only [hfree]
    rfl
  rw [lobby_join (congrArg Lobby.state h) hfind hi, h]
  rfl

theorem lobby_disconnect_single {ctx : Ctx} {conn : Conn} {seq : UInt64}
    (h : ctx.lobby = .single conn seq) (nowMs : UInt64) :
    (disconnect ctx conn nowMs).2.lobby = .empty (seq + 1) := by
  have hstate : ctx.room.state = .waiting := congrArg Lobby.state h
  have hcount : ctx.activePlayerCount = 1 := congrArg Lobby.count h
  have hseat : (ctx.players 0).seat = some ⟨1, seq, true, false, some conn⟩ :=
    congrFun (congrArg Lobby.seats h) 0
  obtain ⟨hocc, heq⟩ := seat_eq_some hseat
  have hconn : (ctx.players 0).connPtr = some conn := (congrArg Seat.conn heq).symm
  have hfind : findPlayerByConn ctx conn = some 0 := by
    rw [findPlayerByConn, slots, List.finRange_succ, List.find?_cons_of_pos]
    simp [hocc, hconn]
  have hempty : (leave ctx 0).activePlayerCount = 0 := by
    have := congrArg Lobby.count (lobby_leave ctx 0)
    simp only [hcount] at this
    exact this
  rw [disconnect, hfind]
  simp only [hstate, reduceCtorEq, if_false, if_true, hempty]
  rw [lobby_resetEmptyRoom]
  have hnext : (leave ctx 0).nextJoinSeq = seq + 1 :=
    (congrArg Lobby.nextSeq (lobby_leave ctx 0)).trans (congrArg Lobby.nextSeq h)
  rw [hnext]
  rfl

/-- A player joins and leaves, `n` times. -/
def comeAndGo (n : ℕ) : List Op :=
  (List.replicate n [Op.join (some 1), Op.disconnect (some 1) 1]).flatten

theorem lobby_comeAndGo {ctx : Ctx} {seq : UInt64} (h : ctx.lobby = .empty seq) (n : ℕ) :
    (run ctx (comeAndGo n)).lobby = .empty (seq + UInt64.ofNat n) := by
  induction n generalizing ctx seq with
  | zero => simpa [comeAndGo, run] using h
  | succ n ih =>
      have hpair := lobby_disconnect_single (lobby_join_empty h 1) 1
      have := ih hpair
      have hsum : seq + 1 + UInt64.ofNat n = seq + UInt64.ofNat (n + 1) := by
        rw [UInt64.ofNat_add, UInt64.add_assoc, UInt64.add_comm 1]
        rfl
      rw [← hsum, ← this]
      rfl

theorem run_append_singleton (ctx : Ctx) (ops : List Op) (op : Op) :
    run ctx (ops ++ [op]) = op.exec (run ctx ops) := by
  rw [run, List.foldl_append]
  rfl

/-- The player that joins an empty room with the last sequence number is not its host. -/
theorem not_roster_join_last {ctx : Ctx} {conn : Conn} (h : ctx.lobby = .empty uint64Max) :
    ¬Roster (join ctx conn).2 := by
  intro hroster
  have hlobby := lobby_join_empty h conn
  have hhost : (join ctx conn).2.room.hostPlayerNo = 0 := congrArg Lobby.host hlobby
  have hconnected : Lobby.Connected (join ctx conn).2.lobby.seats 0
      ⟨1, uint64Max, true, false, some conn⟩ := by
    rw [hlobby]
    exact ⟨rfl, rfl⟩
  rcases hroster.host (.inl (congrArg Lobby.state hlobby)) with ⟨-, hnone⟩ | ⟨i, hi, heq, -⟩
  · exact hnone 0 (connectedAt_of_connected hconnected).1
  · have hno := hroster.playerNo i hi.1
    rw [← heq, hhost] at hno
    simp at hno

theorem not_roster_comeAndGo (roomId : UInt64) (profile : Profile) {n : ℕ}
    (hn : 1 + UInt64.ofNat n = uint64Max) :
    ¬Roster (run (Ctx.init roomId profile) (comeAndGo n ++ [.join (some 1)])) := by
  have hempty : (Ctx.init roomId profile).lobby = .empty 1 := rfl
  have hlast := lobby_comeAndGo hempty n
  rw [hn] at hlast
  rw [run_append_singleton]
  exact not_roster_join_last hlast

/-- After `2 ^ 64 - 2` players have come and gone, the next one is alone in the room and not its
host. -/
theorem roster_fails :
    ¬Roster (run (Ctx.init 1 sampleProfile) (comeAndGo (2 ^ 64 - 2) ++ [.join (some 1)])) :=
  not_roster_comeAndGo 1 sampleProfile (by decide)

end ToosType
