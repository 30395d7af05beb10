import LibCore.ToosClock
import LibCore.ToosSubmit

/-!
# ToosType: Moves

A call of the game context does several things one after another: a tick moves the clock, judges
a deadline, tells the player and deals a sentence, slot by slot. `Shift` lists the single things
that deal no sentence, with the guards under which the program does them, and `Move` adds the two
that matter to the record of a player: a player sits down, and a player is dealt a sentence.
Every call is a chain of moves (`exec_moves`), so an invariant is shown move by move.

The record of a player is what the dispatcher is given for the player's connection while the
player has the slot (`record`). It is a function of the calls; moves only have to agree with it.

## Main definitions

* `Drop`, `record`, `logOf`: the sentences issued to each player.
* `Shift`, `Move`, `Moves`: the parts of calls.

## Main results

* `exec_moves`: every call is a chain of moves.
* `run_moves`: what holds of a new context and is kept by moves holds after every run.
-/

open CString

namespace ToosType

/-! ### The record of a run -/

/-- A sentence issued in a phase. -/
structure Drop where
  phase : UInt32
  id : UInt64
  text : Bytes
deriving DecidableEq

/-- The sentences issued to each slot. -/
abbrev Log := Fin maxRoomPlayers → List Drop

/-- The sentence an event issues to a connection. -/
def dropOf (conn : Option Conn) (phase : UInt32) (ev : Event) : Option Drop :=
  match ev.payload with
  | .sentenceDrop id text _ => if ev.target = conn then some ⟨phase, id, text⟩ else none
  | _ => none

/-- The sentences issued to a connection. -/
def dropsTo (conn : Option Conn) (phase : UInt32) (evs : List Event) : List Drop :=
  evs.filterMap (dropOf conn phase)

/-- The `now_ms` of a call; a call without one has none. -/
def Op.nowMs : Op → UInt64
  | .startGame _ nowMs => nowMs
  | .submit _ _ _ nowMs => nowMs
  | .disconnect _ nowMs => nowMs
  | .tick nowMs => nowMs
  | _ => 0

/-- The record after a call: what the dispatcher was given for the players in their slots. -/
def record (ctx : Ctx) (op : Op) (log : Log) : Log := fun i =>
  if (ctx.players i).occupied then
    log i ++ dropsTo (ctx.players i).connPtr
      ((op.exec ctx).room.phaseAt (ctx.clock op.nowMs)) ((op.exec ctx).sent.drop ctx.sent.length)
  else []

/-- The record of a run. -/
def logOf : Ctx → Log → List Op → Log
  | _, log, [] => log
  | ctx, log, op :: ops => logOf (op.exec ctx) (record ctx op log) ops

theorem dropsTo_append (conn : Option Conn) (phase : UInt32) (evs evs' : List Event) :
    dropsTo conn phase (evs ++ evs') = dropsTo conn phase evs ++ dropsTo conn phase evs' :=
  List.filterMap_append

theorem dropsTo_plain {evs : List Event} (h : Plain evs) (conn : Option Conn) (phase : UInt32) :
    dropsTo conn phase evs = [] := by
  rw [dropsTo, List.filterMap_eq_nil_iff]
  intro ev hev
  have hplain := h ev hev
  rw [dropOf]
  split
  · rename_i heq
    rw [heq] at hplain
    exact hplain.elim
  · rfl

/-! ### Parts of calls -/

/-- A player that has just joined. -/
def newcomer (playerNo : UInt32) (joinSeq : UInt64) (conn : Conn) : Player :=
  { Player.zero with
    occupied := true, playerNo := playerNo, joinSeq := joinSeq, connected := true,
    connPtr := some conn }

/-- The player after the end of the game. -/
def Player.finished (p : Player) (room : Room) : Player :=
  let expires := p.activeSentenceId ≠ 0 ∧ p.sentenceDeadlineMs ≤ room.gameEndMs
  let p' := if expires then { p.clearSentence with expiredCount := p.expiredCount + 1 } else p
  updatePlayerStats room { p' with
    playedMs := room.gameEndMs - room.gameStartMs, finishStatus := .finished } room.gameEndMs

/-- The player after a disconnect in a game. -/
def Player.droppedOut (p : Player) (room : Room) (t : UInt64) : Player :=
  if p.finishStatus = .none then
    let endMs := if t > room.gameEndMs then room.gameEndMs else t
    updatePlayerStats room { p with
      connected := false, connPtr := none,
      playedMs := if endMs > room.gameStartMs then endMs - room.gameStartMs else 0
      finishStatus := .dnf } t
  else { p with connected := false, connPtr := none }

/-- What a call can do that issues no sentence and seats nobody; `good` says which ticks of the
clock are looked at. -/
inductive Shift (good : Room → UInt64 → Prop) (ctx : Ctx) : Ctx → Prop
  | tell (evs : List Event) (hplain : Plain evs) : Shift good ctx (ctx.emit evs)
  | book (count : UInt32) (seq : UInt64) :
      Shift good ctx { ctx with activePlayerCount := count, nextJoinSeq := seq }
  | configure (lang : Language) (locked : Bool) (host : UInt32)
      (hlang : lang = ctx.room.language ∨ ctx.room.state = .waiting ∧ lang ≠ .none) :
      Shift good ctx { ctx with room := { ctx.room with
        language := lang, languageLocked := locked, hostPlayerNo := host } }
  | duration (minutes : UInt32) (room : Room)
      (hroom : ctx.room.setDurationMinutes minutes = some room) :
      Shift good ctx { ctx with room := room }
  | vacate (i : Fin maxRoomPlayers)
      (hstate : ctx.room.state = .waiting ∨ ctx.room.state = .countdown) :
      Shift good ctx (ctx.setPlayer i Player.zero)
  | ready (i : Fin maxRoomPlayers) :
      Shift good ctx (ctx.setPlayer i { ctx.players i with ready := true })
  | load (db : Repository) (spawn : SpawnEngine) (hstate : ctx.room.state = .waiting)
      (hspawn : ctx.spawn.buildDeck db ctx.room.language = some spawn) :
      Shift good ctx { ctx with spawn := spawn }
  | unload (hstate : ctx.room.state = .waiting) : Shift good ctx (resetSpawnEngine ctx)
  | countdown (t : UInt64) (room : Room) (ht : t ≠ 0) (hloaded : ctx.spawn.loaded = true)
      (hroom : ctx.room.startCountdown t = some room) : Shift good ctx { ctx with room := room }
  | cancel (t : UInt64) (hstate : ctx.room.state = .countdown) :
      Shift good ctx { ctx with room := ctx.room.cancelCountdown t }
  | clear (t : UInt64) : Shift good ctx (resetEmptyRoom ctx t)
  | dropOut (i : Fin maxRoomPlayers) (t : UInt64)
      (hstate : ctx.room.state = .playing ∨ ctx.room.state = .result) :
      Shift good ctx (dropOut ctx i t)
  | pass (t : UInt64) (ht : t = 0 → ctx.lastTickMs = 0) (hgood : good ctx.room t) :
      Shift good ctx { ctx with lastTickMs := t, room := (ctx.room.tick t).2 }
  | note (i : Fin maxRoomPlayers) (k : Fin maxPhases) (input : Bytes) (t : UInt64)
      (hstate : ctx.room.state = .playing) :
      Shift good ctx (ctx.setPlayer i ((ctx.players i).judged ctx.room k input .incorrect t))
  | retire (i : Fin maxRoomPlayers) (k : Fin maxPhases) (input : Bytes) (jres : JudgeResult)
      (t : UInt64) (hstate : ctx.room.state = .playing) (hjres : jres = .correct ∨ jres = .expired)
      (hactive : (ctx.players i).activeSentenceId ≠ 0)
      (hk : jres = .correct → Room.phaseIndex (ctx.players i).activePhase = some k) :
      Shift good ctx (ctx.setPlayer i
        ((ctx.players i).judged ctx.room k input jres t).advanceCursor.clearSentence)
  | await (i : Fin maxRoomPlayers) (t : UInt64) (spawn : SpawnEngine)
      (hstate : ctx.room.state = .playing)
      (hclear : (ctx.players i).clearSentence = ctx.players i)
      (hspawn : spawn = ctx.spawn ∨ spawn = nextSpawn ctx (ctx.players i) t) :
      Shift good ctx (({ ctx with spawn := spawn }).setPlayer i (ctx.players i).awaitEnd)
  | finish (i : Fin maxRoomPlayers) (hstate : ctx.room.state = .result) :
      Shift good ctx (ctx.setPlayer i ((ctx.players i).finished ctx.room))

/-- A part of a call, with the record. -/
inductive Move (good : Room → UInt64 → Prop) : Ctx → Log → Ctx → Log → Prop
  | shift {ctx ctx' : Ctx} {log : Log} (h : Shift good ctx ctx') : Move good ctx log ctx' log
  /-- A new player in a free slot. -/
  | seat {ctx : Ctx} {log : Log} (i : Fin maxRoomPlayers) (conn : Conn) (playerNo : UInt32)
      (joinSeq : UInt64) (hstate : ctx.room.state = .waiting)
      (hfree : (ctx.players i).occupied = false)
      (hfresh : ∀ j, (ctx.players j).occupied = true → (ctx.players j).connPtr ≠ some conn) :
      Move good ctx log (ctx.setPlayer i (newcomer playerNo joinSeq conn))
        (Function.update log i [])
  /-- A sentence for a player that has none. -/
  | deal {ctx : Ctx} {log : Log} (i : Fin maxRoomPlayers) (t : UInt64) (k : Fin maxPhases)
      (sent : Sentence) (hstate : ctx.room.state = .playing)
      (hoccupied : (ctx.players i).occupied = true)
      (hclear : (ctx.players i).clearSentence = ctx.players i) (ht : t = 0 → ctx.lastTickMs = 0)
      (htime : ctx.room.HasTime t) (hk : Room.phaseIndex (ctx.room.phaseAt t) = some k)
      (hsent : nextSentence ctx (ctx.players i) t = some sent) :
      Move good ctx log
        ((({ ctx with spawn := nextSpawn ctx (ctx.players i) t }).setPlayer i
          ((ctx.players i).deal sent (ctx.room.phaseAt t) t (ctx.room.sentenceTimeoutMs t))).emit
          [⟨(ctx.players i).connPtr, .sentenceDrop sent.id (ctx.room.textOf sent)
            (ctx.room.sentenceTimeoutMs t)⟩])
        (Function.update log i
          (log i ++ [⟨ctx.room.phaseAt t, sent.id, ctx.room.textOf sent⟩]))

/-- A chain of moves. -/
inductive Moves (good : Room → UInt64 → Prop) : Ctx → Log → Ctx → Log → Prop
  | refl {ctx : Ctx} {log : Log} : Moves good ctx log ctx log
  | head {ctx ctx' ctx'' : Ctx} {log log' log'' : Log} :
      Move good ctx log ctx' log' → Moves good ctx' log' ctx'' log'' →
      Moves good ctx log ctx'' log''

namespace Moves

variable {good : Room → UInt64 → Prop} {ctx ctx' ctx'' : Ctx} {log log' log'' : Log}

theorem shift (h : Shift good ctx ctx') (hrest : Moves good ctx' log ctx'' log') :
    Moves good ctx log ctx'' log' := .head (.shift h) hrest

theorem single (h : Shift good ctx ctx') : Moves good ctx log ctx' log := .shift h .refl

theorem trans (h : Moves good ctx log ctx' log') (h' : Moves good ctx' log' ctx'' log'') :
    Moves good ctx log ctx'' log'' := by
  induction h with
  | refl => exact h'
  | head hmove _ ih => exact .head hmove (ih h')

/-- What every move keeps is kept by chains of them. -/
theorem invariant {P : Ctx → Log → Prop}
    (hmove : ∀ {ctx log ctx' log'}, P ctx log → Move good ctx log ctx' log' → P ctx' log')
    (h : Moves good ctx log ctx' log') (hp : P ctx log) : P ctx' log' := by
  induction h with
  | refl => exact hp
  | head hm _ ih => exact ih (hmove hp hm)

end Moves

/-! ### Orderly contexts -/

/-- Every connected player has a connection of its own, and nobody has a sentence before the
game. -/
structure Orderly (ctx : Ctx) : Prop where
  unique : ∀ i j conn, (ctx.players i).occupied = true → (ctx.players j).occupied = true →
    (ctx.players i).connPtr = some conn → (ctx.players j).connPtr = some conn → i = j
  plugged : ∀ i, (ctx.players i).occupied = true → (ctx.players i).connected = true →
    (ctx.players i).connPtr.isSome
  idle : ctx.room.state = .waiting ∨ ctx.room.state = .countdown →
    ∀ i, (ctx.players i).clearSentence = ctx.players i

theorem seat_congr {p q : Player} (h : p.seat = q.seat) :
    p.occupied = q.occupied ∧
      (q.occupied = true → p.connPtr = q.connPtr ∧ p.connected = q.connected) := by
  have hocc : p.occupied = q.occupied := by rw [← isSome_seat, ← isSome_seat, h]
  refine ⟨hocc, fun hq => ?_⟩
  rw [Player.seat, Player.seat, if_pos hq, if_pos (hocc.trans hq)] at h
  simp only [Option.some.injEq, Seat.mk.injEq] at h
  exact ⟨h.2.2.2.2, h.2.2.1⟩

theorem seat_of_lobby {ctx ctx' : Ctx} (h : ctx'.lobby = ctx.lobby) (i : Fin maxRoomPlayers) :
    (ctx'.players i).seat = (ctx.players i).seat := congrFun (congrArg Lobby.seats h) i

/-- Being orderly is a matter of the connections, once the game has begun. -/
theorem Orderly.of_links {ctx ctx' : Ctx} (h : Orderly ctx)
    (hlink : ∀ i, (ctx'.players i).occupied = (ctx.players i).occupied ∧
      ((ctx.players i).occupied = true → (ctx'.players i).connPtr = (ctx.players i).connPtr ∧
        (ctx'.players i).connected = (ctx.players i).connected))
    (hidle : ctx'.room.state = .waiting ∨ ctx'.room.state = .countdown →
      ∀ i, (ctx'.players i).clearSentence = ctx'.players i) : Orderly ctx' := by
  refine ⟨fun i j conn hi hj hci hcj => ?_, fun i hi hcon => ?_, hidle⟩
  · rw [(hlink i).1] at hi
    rw [(hlink j).1] at hj
    rw [((hlink i).2 hi).1] at hci
    rw [((hlink j).2 hj).1] at hcj
    exact h.unique i j conn hi hj hci hcj
  · rw [(hlink i).1] at hi
    rw [((hlink i).2 hi).2] at hcon
    rw [((hlink i).2 hi).1]
    exact h.plugged i hi hcon

/-- The same players in another room. -/
theorem Orderly.of_players {ctx ctx' : Ctx} (h : Orderly ctx) (hplayers : ctx'.players = ctx.players)
    (hstate : ctx'.room.state = .waiting ∨ ctx'.room.state = .countdown →
      ctx.room.state = .waiting ∨ ctx.room.state = .countdown) : Orderly ctx' := by
  refine h.of_links (fun i => by rw [hplayers]; exact ⟨rfl, fun _ => ⟨rfl, rfl⟩⟩) fun hidle i => ?_
  rw [hplayers]
  exact h.idle (hstate hidle) i

/-- A game that goes on with the same seats. -/
theorem Orderly.of_lobby {ctx ctx' : Ctx} (h : Orderly ctx) (hlobby : ctx'.lobby = ctx.lobby)
    (hstate : ctx.room.state = .playing ∨ ctx.room.state = .result) : Orderly ctx' := by
  refine h.of_links (fun i => seat_congr (seat_of_lobby hlobby i)) fun hidle => ?_
  have hsame : ctx'.room.state = ctx.room.state := congrArg Lobby.state hlobby
  rw [hsame] at hidle
  rcases hstate with hstate | hstate <;> simp [hstate] at hidle

theorem Orderly.init (roomId : UInt64) (profile : Profile) : Orderly (Ctx.init roomId profile) :=
  ⟨fun i j conn hi => absurd hi (by simp [Ctx.init, Player.zero]),
    fun i hi => absurd hi (by simp [Ctx.init, Player.zero]), fun _ _ => rfl⟩

/-- A slot is emptied, or its player unplugged. -/
theorem Orderly.setPlayer {ctx : Ctx} (h : Orderly ctx) (i : Fin maxRoomPlayers) {p : Player}
    (hconn : p.occupied = true → p.connPtr = none ∧ p.connected = false)
    (hidle : ctx.room.state = .waiting ∨ ctx.room.state = .countdown → p.clearSentence = p) :
    Orderly (ctx.setPlayer i p) := by
  have hplayer : ∀ j, (ctx.setPlayer i p).players j = if j = i then p else ctx.players j :=
    fun j => Function.update_apply _ _ _ _
  refine ⟨fun j k conn => ?_, fun j => ?_, fun hstate j => ?_⟩
  · rw [hplayer, hplayer]
    split_ifs with hji hki hki
    · exact fun _ _ _ _ => hji.trans hki.symm
    · exact fun hj _ hcj => absurd ((hconn hj).1.symm.trans hcj) (by simp)
    · exact fun _ hk _ hck => absurd ((hconn hk).1.symm.trans hck) (by simp)
    · exact h.unique j k conn
  · rw [hplayer]
    split_ifs
    · exact fun hj hcon => absurd ((hconn hj).2.symm.trans hcon) (by simp)
    · exact h.plugged j
  · rw [hplayer]
    split_ifs
    · exact hidle hstate
    · exact h.idle hstate j

theorem dropOut_eq (ctx : Ctx) (i : Fin maxRoomPlayers) (t : UInt64) :
    dropOut ctx i t = ctx.setPlayer i ((ctx.players i).droppedOut ctx.room t) := by
  rw [dropOut, Player.droppedOut]
  by_cases h : (ctx.players i).finishStatus = .none
  · rw [if_pos h, if_pos h]
  · rw [if_neg h, if_neg h]

theorem links_droppedOut (p : Player) (room : Room) (t : UInt64) :
    (p.droppedOut room t).connPtr = none ∧ (p.droppedOut room t).connected = false ∧
      (p.droppedOut room t).occupied = p.occupied := by
  rw [Player.droppedOut]
  by_cases h : p.finishStatus = .none
  · rw [if_pos h]
    exact ⟨rfl, rfl, rfl⟩
  · rw [if_neg h]
    exact ⟨rfl, rfl, rfl⟩

theorem seat_finished (p : Player) (room : Room) : (p.finished room).seat = p.seat := by
  rw [Player.finished]
  simp only
  split_ifs <;> rfl

theorem lobby_setPlayer_spawn {ctx : Ctx} {spawn : SpawnEngine} {i : Fin maxRoomPlayers}
    {p : Player} (h : p.seat = (ctx.players i).seat) :
    (({ ctx with spawn := spawn } : Ctx).setPlayer i p).lobby = ctx.lobby :=
  lobby_setPlayer_of_seat h

theorem idle_of_tick {room : Room} {t : UInt64}
    (h : (room.tick t).2.state = .waiting ∨ (room.tick t).2.state = .countdown) :
    room.state = .waiting ∨ room.state = .countdown := by
  obtain ⟨-, -, hsame | ⟨hold, -⟩ | ⟨-, hnew⟩⟩ := room.tick_spec t
  · exact hsame ▸ h
  · exact .inr hold
  · simp [hnew] at h

theorem Orderly.shift {good : Room → UInt64 → Prop} {ctx ctx' : Ctx} (h : Orderly ctx)
    (hshift : Shift good ctx ctx') : Orderly ctx' := by
  cases hshift with
  | tell evs hplain => exact h.of_players rfl id
  | book count seq => exact h.of_players rfl id
  | configure lang locked host hlang => exact h.of_players rfl id
  | duration minutes room hroom =>
      obtain ⟨-, phases, rfl⟩ := Room.setDurationMinutes_eq hroom
      exact h.of_players rfl id
  | vacate i hstate => exact h.setPlayer i (by simp [Player.zero]) fun _ => rfl
  | ready i =>
      refine h.of_links (fun j => ?_) fun hidle j => ?_
      · by_cases hji : j = i
        · subst hji
          rw [players_setPlayer_self]
          exact ⟨rfl, fun _ => ⟨rfl, rfl⟩⟩
        · rw [players_setPlayer_of_ne _ _ hji]
          exact ⟨rfl, fun _ => ⟨rfl, rfl⟩⟩
      · by_cases hji : j = i
        · subst hji
          rw [players_setPlayer_self]
          exact congrArg (fun p : Player => { p with ready := true }) (h.idle hidle j)
        · rw [players_setPlayer_of_ne _ _ hji]
          exact h.idle hidle j
  | load db spawn hstate hspawn => exact h.of_players rfl id
  | unload hstate => exact h.of_players rfl id
  | countdown t room ht hloaded hroom =>
      obtain ⟨hstate, deadline, -, rfl⟩ := Room.startCountdown_eq hroom
      exact h.of_players rfl fun _ => .inl hstate
  | cancel t hstate => exact h.of_players rfl fun _ => .inr hstate
  | clear t =>
      have hzero : ∀ i, (resetEmptyRoom ctx t).players i = Player.zero := fun _ => rfl
      refine ⟨fun i j conn hi => ?_, fun i hi => ?_, fun _ i => ?_⟩
      · rw [hzero] at hi
        exact absurd hi (by simp [Player.zero])
      · rw [hzero] at hi
        exact absurd hi (by simp [Player.zero])
      · rw [hzero]
        rfl
  | dropOut i t hstate =>
      obtain ⟨hptr, hcon, -⟩ := links_droppedOut (ctx.players i) ctx.room t
      rw [dropOut_eq]
      refine h.setPlayer i (fun _ => ⟨hptr, hcon⟩) fun hidle => ?_
      rcases hstate with hstate | hstate <;> simp [hstate] at hidle
  | pass t ht hgood =>
      exact h.of_players rfl idle_of_tick
  | note i k input t hstate => exact h.of_lobby (lobby_setPlayer_of_seat rfl) (.inl hstate)
  | retire i k input jres t hstate hjres hactive hk =>
      refine h.of_lobby (lobby_setPlayer_of_seat ?_) (.inl hstate)
      exact (seat_advanceCursor _).trans (seat_credit (ctx.players i) ctx.room k input jres)
  | await i t spawn hstate hclear hspawn =>
      refine h.of_lobby ?_ (.inl hstate)
      exact lobby_setPlayer_spawn rfl
  | finish i hstate => exact h.of_lobby (lobby_setPlayer_of_seat (seat_finished _ _)) (.inr hstate)

theorem Orderly.seat {ctx : Ctx} (h : Orderly ctx) {i : Fin maxRoomPlayers} {conn : Conn}
    (playerNo : UInt32) (joinSeq : UInt64)
    (hfresh : ∀ j, (ctx.players j).occupied = true → (ctx.players j).connPtr ≠ some conn) :
    Orderly (ctx.setPlayer i (newcomer playerNo joinSeq conn)) := by
  have hplayer : ∀ j, (ctx.setPlayer i (newcomer playerNo joinSeq conn)).players j =
      if j = i then newcomer playerNo joinSeq conn else ctx.players j :=
    fun j => Function.update_apply _ _ _ _
  have hptr : (newcomer playerNo joinSeq conn).connPtr = some conn := rfl
  refine ⟨fun j k conn' => ?_, fun j => ?_, fun hstate j => ?_⟩
  · rw [hplayer, hplayer]
    split_ifs with hji hki hki
    · exact fun _ _ _ _ => hji.trans hki.symm
    · intro _ hk hcj hck
      exact absurd (hck.trans (hcj.symm.trans hptr)) (hfresh k hk)
    · intro hj _ hcj hck
      exact absurd (hcj.trans (hck.symm.trans hptr)) (hfresh j hj)
    · exact h.unique j k conn'
  · rw [hplayer]
    split_ifs
    · exact fun _ _ => rfl
    · exact h.plugged j
  · rw [hplayer]
    split_ifs
    · rfl
    · exact h.idle hstate j

/-- **Moves keep a context orderly.** -/
theorem Orderly.move {good : Room → UInt64 → Prop} {ctx ctx' : Ctx} {log log' : Log}
    (h : Orderly ctx) (hmove : Move good ctx log ctx' log') : Orderly ctx' := by
  cases hmove with
  | shift hshift => exact h.shift hshift
  | seat i conn playerNo joinSeq hstate hfree hfresh => exact h.seat playerNo joinSeq hfresh
  | deal i t k sent hstate hoccupied hclear ht htime hk hsent =>
      refine h.of_lobby ?_ (.inl hstate)
      exact lobby_setPlayer_spawn rfl

/-! ### Calls that issue no sentence -/

/-- A chain of shifts: no sentence is issued and nobody sits down. -/
structure Quiet (good : Room → UInt64 → Prop) (ctx ctx' : Ctx) : Prop where
  moves : ∀ log, Moves good ctx log ctx' log
  events : ∃ evs, Plain evs ∧ ctx'.sent = ctx.sent ++ evs
  seats : ∀ i, (ctx'.players i).occupied = true → (ctx.players i).occupied = true

section Quiet

variable {good : Room → UInt64 → Prop} {ctx ctx' ctx'' : Ctx}

theorem plain_nil : Plain [] := by simp [Plain]

theorem Plain.append {evs evs' : List Event} (h : Plain evs) (h' : Plain evs') :
    Plain (evs ++ evs') := fun ev hev => (List.mem_append.mp hev).elim (h ev) (h' ev)

theorem plain_singleton {target : Option Conn} {payload : Payload} (h : payload.Plain) :
    Plain [⟨target, payload⟩] := by
  intro ev hev
  rw [List.mem_singleton] at hev
  rw [hev]
  exact h

theorem Quiet.refl : Quiet good ctx ctx :=
  ⟨fun _ => .refl, ⟨[], plain_nil, (List.append_nil _).symm⟩, fun _ h => h⟩

theorem Quiet.trans (h : Quiet good ctx ctx') (h' : Quiet good ctx' ctx'') :
    Quiet good ctx ctx'' := by
  obtain ⟨evs, hplain, hsent⟩ := h.events
  obtain ⟨evs', hplain', hsent'⟩ := h'.events
  refine ⟨fun log => (h.moves log).trans (h'.moves log), ⟨evs ++ evs', hplain.append hplain', ?_⟩,
    fun i hi => h.seats i (h'.seats i hi)⟩
  rw [hsent', hsent, List.append_assoc]

theorem occupied_setPlayer {i j : Fin maxRoomPlayers} {p : Player}
    (hj : ((ctx.setPlayer i p).players j).occupied = true)
    (h : p.occupied = true → (ctx.players i).occupied = true) :
    (ctx.players j).occupied = true := by
  by_cases hji : j = i
  · subst hji
    rw [players_setPlayer_self] at hj
    exact h hj
  · rwa [players_setPlayer_of_ne _ _ hji] at hj

theorem Quiet.shift (h : Shift good ctx ctx') : Quiet good ctx ctx' := by
  refine ⟨fun log => .single h, ?_, ?_⟩
  · cases h with
    | tell evs hplain => exact ⟨evs, hplain, rfl⟩
    | dropOut i t =>
        rw [dropOut_eq]
        exact ⟨[], plain_nil, (List.append_nil _).symm⟩
    | _ => exact ⟨[], plain_nil, (List.append_nil _).symm⟩
  · intro j hj
    cases h with
    | vacate i hstate => exact occupied_setPlayer hj fun h => absurd h (by simp [Player.zero])
    | ready i => exact occupied_setPlayer hj id
    | clear t => exact absurd hj (by simp [resetEmptyRoom, resetSpawnEngine, Player.zero])
    | dropOut i t hstate =>
        rw [dropOut_eq] at hj
        refine occupied_setPlayer hj fun h => ?_
        rwa [(links_droppedOut _ _ _).2.2] at h
    | note i k input t hstate => exact occupied_setPlayer hj id
    | retire i k input jres t hstate hjres hactive hk =>
        refine occupied_setPlayer hj fun h => ?_
        have hseat := (seat_advanceCursor ((ctx.players i).judged ctx.room k input jres t)).trans
          (seat_credit (ctx.players i) ctx.room k input jres)
        exact (seat_congr hseat).1 ▸ h
    | await i t spawn hstate hclear hspawn =>
        exact occupied_setPlayer hj id
    | finish i hstate =>
        exact occupied_setPlayer hj fun h => (seat_congr (seat_finished _ _)).1 ▸ h
    | _ => exact hj

theorem Quiet.event {target : Option Conn} {payload : Payload} (h : payload.Plain) :
    Quiet good ctx (emitEvent ctx target payload) := .shift (.tell _ (plain_singleton h))

theorem Quiet.error {conn : Option Conn} {msg : String} : Quiet good ctx (emitError ctx conn msg) :=
  .event trivial

theorem Quiet.config {target : Option Conn} : Quiet good ctx (emitRoomConfig ctx target) :=
  .event trivial

/-- The settings of the room that are not about the clock. -/
theorem Quiet.configure {lang : Language} {locked : Bool} {host : UInt32}
    (hlang : lang = ctx.room.language ∨ ctx.room.state = .waiting ∧ lang ≠ .none) :
    Quiet good ctx { ctx with room := { ctx.room with
      language := lang, languageLocked := locked, hostPlayerNo := host } } :=
  .shift (.configure lang locked host hlang)

theorem quiet_setLanguage (conn : Conn) (lang : Language) :
    Quiet good ctx (setLanguage ctx conn lang).2 := by
  rw [setLanguage]
  split_ifs with hstate hlock hhost hlang
  · exact .error
  · exact .error
  · exact .error
  · exact .error
  · refine (Quiet.configure (.inr ⟨not_not.mp hstate, ?_⟩)).trans .config
    rintro rfl
    simp at hlang

theorem quiet_setDuration (conn : Conn) (minutes : UInt32) :
    Quiet good ctx (setDuration ctx conn minutes).2 := by
  rw [setDuration]
  split_ifs
  · exact .error
  · exact .error
  · exact .error
  · exact .error
  · split
    · exact .error
    · rename_i room hroom
      exact (Quiet.shift (.duration minutes room hroom)).trans .config

theorem quiet_setReady (conn : Conn) : Quiet good ctx (setReady ctx conn).2 := by
  rw [setReady]
  split_ifs
  · exact .refl
  · exact .error
  · split
    · exact .refl
    · rename_i i hi
      exact ((Quiet.configure (.inl rfl)).trans (.shift (.ready i))).trans .config

theorem quiet_prepareStart (db : Repository) (conn : Conn) :
    Quiet good ctx (prepareStart ctx db conn).2 := by
  rw [prepareStart]
  split_ifs with hstate
  · exact .error
  · exact .error
  · exact .error
  · exact .error
  · exact .error
  · split
    · exact .error
    · rename_i spawn hspawn
      exact .shift (.load db spawn (not_not.mp hstate) hspawn)

theorem quiet_abortStart : Quiet good ctx (abortStart ctx) := by
  rw [abortStart]
  split_ifs with h
  · exact .shift (.unload h.1)
  · exact .refl

theorem quiet_startGame (conn : Conn) (nowMs : UInt64) :
    Quiet good ctx (startGame ctx conn nowMs).2 := by
  rw [startGame]
  split_ifs with hzero hstate hhost hloaded hready hloaded hloaded
  · exact .refl
  · exact .error
  · exact (Quiet.shift (.unload (not_not.mp hstate))).trans .error
  · exact .error
  · exact (Quiet.shift (.unload (not_not.mp hstate))).trans .error
  · exact .error
  · exact .error
  · split
    · exact (Quiet.shift (.unload (not_not.mp hstate))).trans .error
    · rename_i room hroom
      have hloaded : ctx.spawn.loaded = true := by simpa using hloaded
      refine (Quiet.shift (.countdown nowMs room hzero hloaded hroom)).trans (.trans ?_ .config)
      exact .event trivial

theorem quiet_refreshConfigLock : Quiet good ctx (refreshConfigLock ctx) := .configure (.inl rfl)

theorem quiet_recalculateHost : Quiet good ctx (recalculateHost ctx) := .configure (.inl rfl)

theorem quiet_leave {i : Fin maxRoomPlayers}
    (hstate : ctx.room.state = .waiting ∨ ctx.room.state = .countdown) :
    Quiet good ctx (leave ctx i) := by
  rw [leave]
  exact ((Quiet.shift (.vacate i hstate)).trans (.shift (.book _ _))).trans quiet_recalculateHost

theorem quiet_disconnect (conn : Conn) (nowMs : UInt64) :
    Quiet good ctx (disconnect ctx conn nowMs).2 := by
  rw [disconnect]
  simp only
  generalize (if nowMs = 0 then ctx.lastTickMs else nowMs) = t
  split
  · exact .refl
  rename_i i hi
  by_cases hcountdown : ctx.room.state = .countdown
  · rw [if_pos hcountdown]
    have hleave : Quiet good ctx { leave ctx i with room := (leave ctx i).room.cancelCountdown t } :=
      (quiet_leave (.inr hcountdown)).trans (.shift (.cancel t hcountdown))
    split_ifs with hempty
    · exact hleave.trans (.shift (.clear t))
    · refine hleave.trans (.trans (.shift (.unload ?_)) ?_)
      · simp [Room.cancelCountdown, leave, recalculateHost, hcountdown]
      · refine quiet_refreshConfigLock.trans (.trans ?_ .config)
        exact .event trivial
  rw [if_neg hcountdown]
  by_cases hwaiting : ctx.room.state = .waiting
  · rw [if_pos hwaiting]
    split_ifs with hempty
    · exact (quiet_leave (.inl hwaiting)).trans (.shift (.clear t))
    · exact (quiet_leave (.inl hwaiting)).trans (quiet_refreshConfigLock.trans .config)
  rw [if_neg hwaiting]
  have hstate : ctx.room.state = .playing ∨ ctx.room.state = .result := by
    cases hs : ctx.room.state with
    | waiting => exact absurd hs hwaiting
    | countdown => exact absurd hs hcountdown
    | playing => exact .inl rfl
    | result => exact .inr rfl
  split_ifs
  · exact .shift (.dropOut i t hstate)
  · exact (Quiet.shift (.dropOut i t hstate)).trans (.shift (.clear t))

end Quiet

/-! ### Calls that issue sentences -/

/-- A chain of moves within a game, at one time: the room and the seats stay, and the record is
extended by what the dispatcher is given. -/
structure Dealt (good : Room → UInt64 → Prop) (t : UInt64) (ctx : Ctx) (log : Log) (ctx' : Ctx)
    (log' : Log) : Prop where
  moves : Moves good ctx log ctx' log'
  room : ctx'.room = ctx.room
  clock : ctx'.lastTickMs = ctx.lastTickMs
  lobby : ctx'.lobby = ctx.lobby
  record : ∃ evs, ctx'.sent = ctx.sent ++ evs ∧ ∀ i, (ctx.players i).occupied = true →
    log' i = log i ++ dropsTo (ctx.players i).connPtr (ctx.room.phaseAt t) evs

section Dealt

variable {good : Room → UInt64 → Prop} {t : UInt64} {ctx ctx' ctx'' : Ctx} {log log' log'' : Log}

theorem Dealt.refl : Dealt good t ctx log ctx log :=
  ⟨.refl, rfl, rfl, rfl, [], (List.append_nil _).symm, fun _ _ => (List.append_nil _).symm⟩

theorem Dealt.trans (h : Dealt good t ctx log ctx' log') (h' : Dealt good t ctx' log' ctx'' log'') :
    Dealt good t ctx log ctx'' log'' := by
  obtain ⟨evs, hsent, hlog⟩ := h.record
  obtain ⟨evs', hsent', hlog'⟩ := h'.record
  refine ⟨h.moves.trans h'.moves, h'.room.trans h.room, h'.clock.trans h.clock,
    h'.lobby.trans h.lobby, evs ++ evs', by rw [hsent', hsent, List.append_assoc], fun i hi => ?_⟩
  obtain ⟨hocc, hlinks⟩ := seat_congr (seat_of_lobby h.lobby i)
  rw [hlog' i (hocc.trans hi), hlog i hi, (hlinks hi).1, h.room, dropsTo_append, List.append_assoc]

theorem Dealt.quiet (h : Quiet good ctx ctx') (hroom : ctx'.room = ctx.room)
    (hclock : ctx'.lastTickMs = ctx.lastTickMs) (hlobby : ctx'.lobby = ctx.lobby) :
    Dealt good t ctx log ctx' log := by
  obtain ⟨evs, hplain, hsent⟩ := h.events
  refine ⟨h.moves log, hroom, hclock, hlobby, evs, hsent, fun i _ => ?_⟩
  rw [dropsTo_plain hplain, List.append_nil]

theorem Dealt.tell {evs : List Event} (hplain : Plain evs) :
    Dealt good t ctx log (ctx.emit evs) log := .quiet (.shift (.tell evs hplain)) rfl rfl rfl

theorem Dealt.orderly (h : Dealt good t ctx log ctx' log') (horder : Orderly ctx) : Orderly ctx' :=
  h.moves.invariant (P := fun ctx _ => Orderly ctx) Orderly.move horder

theorem spawn_setPlayer (ctx : Ctx) (i : Fin maxRoomPlayers) (p q : Player) (spawn : SpawnEngine) :
    ({ ctx.setPlayer i p with spawn := spawn } : Ctx).setPlayer i q =
      ({ ctx with spawn := spawn } : Ctx).setPlayer i q := by
  simp [Ctx.setPlayer]

/-- A sentence for a player that has none. -/
theorem Dealt.deal (good : Room → UInt64 → Prop) (log : Log) (i : Fin maxRoomPlayers)
    (horder : Orderly ctx) {k : Fin maxPhases} {sent : Sentence} (hstate : ctx.room.state = .playing)
    (hocc : (ctx.players i).occupied = true) (hcon : (ctx.players i).connected = true)
    (hclear : (ctx.players i).clearSentence = ctx.players i) (ht : t = 0 → ctx.lastTickMs = 0)
    (htime : ctx.room.HasTime t) (hk : Room.phaseIndex (ctx.room.phaseAt t) = some k)
    (hsent : nextSentence ctx (ctx.players i) t = some sent) :
    ∃ log', Dealt good t ctx log
      ((({ ctx with spawn := nextSpawn ctx (ctx.players i) t }).setPlayer i
        ((ctx.players i).deal sent (ctx.room.phaseAt t) t (ctx.room.sentenceTimeoutMs t))).emit
        [⟨(ctx.players i).connPtr, .sentenceDrop sent.id (ctx.room.textOf sent)
          (ctx.room.sentenceTimeoutMs t)⟩]) log' := by
  refine ⟨_, .head (.deal i t k sent hstate hocc hclear ht htime hk hsent) .refl, rfl, rfl,
    lobby_setPlayer_spawn rfl, _, rfl, fun j hj => ?_⟩
  obtain ⟨conn, hconn⟩ := Option.isSome_iff_exists.mp (horder.plugged i hocc hcon)
  by_cases hji : j = i
  · subst hji
    rw [Function.update_self]
    simp [dropsTo, dropOf]
  · -- Nobody else has the connection.
    have hne : (ctx.players i).connPtr ≠ (ctx.players j).connPtr := by
      intro heq
      exact hji (horder.unique j i conn hj hocc (heq ▸ hconn) hconn)
    rw [Function.update_of_ne hji]
    simp [dropsTo, dropOf, hne]

/-- `issue_next_sentence`, for a player whose last sentence is done with. -/
theorem dealt_issueNextSentence (good : Room → UInt64 → Prop) (log : Log) (ctx : Ctx)
    (i : Fin maxRoomPlayers)
    (horder : Orderly (ctx.setPlayer i (ctx.players i).clearSentence))
    (hstate : ctx.room.state = .playing) (hocc : (ctx.players i).occupied = true)
    (hcon : (ctx.players i).connected = true) (ht : t = 0 → ctx.lastTickMs = 0) :
    ∃ log', Dealt good t (ctx.setPlayer i (ctx.players i).clearSentence) log
      (issueNextSentence ctx i t) log' := by
  have hself : (ctx.setPlayer i (ctx.players i).clearSentence).players i =
      (ctx.players i).clearSentence := players_setPlayer_self _ _ _
  have hspawn : nextSpawn (ctx.setPlayer i (ctx.players i).clearSentence)
      (ctx.players i).clearSentence t = nextSpawn ctx (ctx.players i) t := rfl
  have hnext : nextSentence (ctx.setPlayer i (ctx.players i).clearSentence)
      (ctx.players i).clearSentence t = nextSentence ctx (ctx.players i) t := rfl
  obtain ⟨k, sent, htime, hk, hsent, heq⟩ | ⟨-, spawn, evs, hsp, hplain, heq⟩ :=
    issueNextSentence_cases ctx i t
  · rw [heq]
    obtain ⟨log', hdealt⟩ := Dealt.deal good log i horder hstate (by rw [hself]; exact hocc)
      (by rw [hself]; exact hcon) (by rw [hself]; rfl) ht htime hk
      (by rw [hself, hnext]; exact hsent)
    rw [hself, hspawn, spawn_setPlayer] at hdealt
    exact ⟨log', hdealt⟩
  · rw [heq]
    refine ⟨log, .trans ?_ (.tell hplain)⟩
    have hawait : Shift good (ctx.setPlayer i (ctx.players i).clearSentence) _ :=
      .await i t spawn hstate (by rw [hself]; rfl) (by rw [hself, hspawn]; exact hsp)
    rw [hself, spawn_setPlayer] at hawait
    have hclear : (ctx.setPlayer i (ctx.players i).clearSentence).lobby = ctx.lobby :=
      lobby_setPlayer_of_seat rfl
    refine .quiet (.shift hawait) rfl rfl ?_
    rw [hclear]
    exact lobby_setPlayer_spawn rfl

/-- A sentence is done with, the player is told, and the next one is due. -/
theorem dealt_retire (good : Room → UInt64 → Prop) (log : Log) (i : Fin maxRoomPlayers)
    (k : Fin maxPhases) (input : Bytes) {jres : JudgeResult} {evs : List Event}
    (horder : Orderly ctx) (hplain : Plain evs)
    (hstate : ctx.room.state = .playing) (hocc : (ctx.players i).occupied = true)
    (hcon : (ctx.players i).connected = true) (ht : t = 0 → ctx.lastTickMs = 0)
    (hjres : jres = .correct ∨ jres = .expired) (hactive : (ctx.players i).activeSentenceId ≠ 0)
    (hk : jres = .correct → Room.phaseIndex (ctx.players i).activePhase = some k) :
    ∃ log', Dealt good t ctx log (issueNextSentence
      (((ctx.setPlayer i ((ctx.players i).judged ctx.room k input jres t)).emit evs).setPlayer i
        ((ctx.players i).judged ctx.room k input jres t).advanceCursor) i t) log' := by
  generalize hp : ((ctx.players i).judged ctx.room k input jres t).advanceCursor = p
  have hseat : p.seat = (ctx.players i).seat := by
    rw [← hp]
    exact (seat_advanceCursor _).trans (seat_credit (ctx.players i) ctx.room k input jres)
  obtain ⟨hocc', hlinks⟩ := seat_congr hseat
  -- The context in which the player has no sentence.
  have hretire : Shift good ctx (ctx.setPlayer i p.clearSentence) := by
    rw [← hp]
    exact .retire i k input jres t hstate hjres hactive hk
  have hfirst : Dealt good t ctx log ((ctx.setPlayer i p.clearSentence).emit evs) log :=
    .trans (.quiet (.shift hretire) rfl rfl (lobby_setPlayer_of_seat hseat)) (.tell hplain)
  generalize hc : ((ctx.setPlayer i ((ctx.players i).judged ctx.room k input jres t)).emit
    evs).setPlayer i p = c
  have hself : c.players i = p := by rw [← hc, players_setPlayer_self]
  have heq : (ctx.setPlayer i p.clearSentence).emit evs = c.setPlayer i p.clearSentence := by
    rw [← hc]
    simp [Ctx.setPlayer, Ctx.emit]
  have horder' := hfirst.orderly horder
  have hroom : c.room = ctx.room := by rw [← hc]; rfl
  have hclock : c.lastTickMs = ctx.lastTickMs := by rw [← hc]; rfl
  rw [heq, ← hself] at hfirst horder'
  obtain ⟨log', hdealt⟩ := dealt_issueNextSentence good log c i horder'
    (by rw [hroom]; exact hstate) (by rw [hself, hocc', hocc])
    (by rw [hself, (hlinks hocc).2, hcon]) (by rw [hclock]; exact ht)
  exact ⟨log', hfirst.trans hdealt⟩

theorem clock_eq_zero {nowMs : UInt64} (h : ctx.clock nowMs = 0) : ctx.lastTickMs = 0 := by
  rw [Ctx.clock] at h
  split_ifs at h with hzero
  · exact h
  · exact absurd h hzero

theorem emit_emit (ctx : Ctx) (evs evs' : List Event) :
    (ctx.emit evs).emit evs' = ctx.emit (evs ++ evs') := by
  simp [Ctx.emit]

theorem dealt_submit (horder : Orderly ctx) (conn : Conn) (sentenceId : UInt64) (input : Bytes)
    (nowMs : UInt64) :
    ∃ log', Dealt good (ctx.clock nowMs) ctx log (submit ctx conn sentenceId input nowMs).2 log' := by
  have hcases := submit_cases ctx conn sentenceId input nowMs
  generalize (submit ctx conn sentenceId input nowMs).2 = after at hcases
  cases hcases with
  | ignored evs hplain _ _ => exact ⟨log, .tell hplain⟩
  | counted i k target jres hi hj herror hstale =>
      have hocc := (seat_eq_some (findPlayerByConn_eq_some hi)).1
      have hplain : ∀ payload payload' : Payload, payload.Plain → payload'.Plain →
          Plain ([⟨some conn, payload⟩] ++ [⟨some conn, payload'⟩]) :=
        fun _ _ h h' => (plain_singleton h).append (plain_singleton h')
      rw [afterJudge]
      by_cases hadvance : jres = .correct ∨ jres = .expired
      · rw [if_pos hadvance, emit_emit]
        exact dealt_retire good log i k input horder (hplain _ _ trivial trivial) hj.playing hocc
          hj.connected clock_eq_zero hadvance hj.active fun _ => hj.phase
      · have hincorrect : jres = .incorrect := by
          cases jres <;> simp_all
        rw [if_neg hadvance, emit_emit, hincorrect]
        refine ⟨log, .trans (.quiet (.shift (.note i k input _ hj.playing)) rfl rfl ?_)
          (.tell (hplain _ _ trivial trivial))⟩
        exact lobby_setPlayer_of_seat rfl

theorem dealt_expirePlayer (horder : Orderly ctx) (hstate : ctx.room.state = .playing)
    (ht : t = 0 → ctx.lastTickMs = 0) (i : Fin maxRoomPlayers) :
    ∃ log', Dealt good t ctx log (expirePlayer t ctx i) log' := by
  rw [expirePlayer]
  simp only
  split_ifs with hplays hdue
  · simp only [Bool.and_eq_true, decide_eq_true_eq] at hplays
    have hplain : Plain ([⟨(ctx.players i).connPtr,
          .sentenceResult (ctx.players i).activeSentenceId .expired⟩] ++
        [⟨(ctx.players i).connPtr, scoreUpdate ((ctx.players i).judged ctx.room 0 [] .expired t)
          (ctx.players i).activeSentenceId⟩]) :=
      Plain.append (plain_singleton trivial) (plain_singleton trivial)
    -- The phase and the input of an expired sentence do not matter.
    have hretire := dealt_retire good log i 0 [] horder hplain hstate hplays.1.1 hplays.1.2 ht
      (.inr rfl) hdue.1 (by simp)
    rw [← emit_emit] at hretire
    exact hretire
  · exact ⟨log, .refl⟩
  · exact ⟨log, .refl⟩

/-- A loop over the slots. -/
theorem dealt_foldl (ready : Ctx → Fin maxRoomPlayers → Prop)
    {f : Ctx → Fin maxRoomPlayers → Ctx}
    (hf : ∀ {ctx i} log, Orderly ctx → ctx.room.state = .playing → (t = 0 → ctx.lastTickMs = 0) →
      ready ctx i → ∃ log', Dealt good t ctx log (f ctx i) log')
    (hready : ∀ {ctx i j}, j ≠ i → ready ctx j → ready (f ctx i) j)
    {is : List (Fin maxRoomPlayers)} (hnodup : is.Nodup) (horder : Orderly ctx)
    (hstate : ctx.room.state = .playing) (ht : t = 0 → ctx.lastTickMs = 0)
    (his : ∀ i ∈ is, ready ctx i) : ∃ log', Dealt good t ctx log (is.foldl f ctx) log' := by
  induction is generalizing ctx log with
  | nil => exact ⟨log, .refl⟩
  | cons i is ih =>
      obtain ⟨hmem, hnodup⟩ := List.nodup_cons.mp hnodup
      obtain ⟨log₁, h₁⟩ := hf log horder hstate ht (his i List.mem_cons_self)
      obtain ⟨log₂, h₂⟩ : ∃ log₂, Dealt good t (f ctx i) log₁ (is.foldl f (f ctx i)) log₂ := by
        refine ih hnodup (h₁.orderly horder) (h₁.room ▸ hstate) (h₁.clock ▸ ht) fun j hj => ?_
        exact hready (fun h => hmem (h ▸ hj)) (his j (List.mem_cons_of_mem i hj))
      exact ⟨log₂, h₁.trans h₂⟩

theorem dealt_tickDeadlines (horder : Orderly ctx) (ht : t = 0 → ctx.lastTickMs = 0) :
    ∃ log', Dealt good t ctx log (tickDeadlines ctx t) log' := by
  rw [tickDeadlines]
  split_ifs with hstate
  · exact dealt_foldl (fun _ _ => True)
      (fun _ horder hstate ht _ => dealt_expirePlayer horder hstate ht _) (fun _ _ => trivial)
      (List.nodup_finRange _) horder hstate ht fun _ _ => trivial
  · exact ⟨log, .refl⟩

theorem dealt_dealPlayer (horder : Orderly ctx) (hstate : ctx.room.state = .playing)
    (ht : t = 0 → ctx.lastTickMs = 0) {i : Fin maxRoomPlayers}
    (hclear : (ctx.players i).clearSentence = ctx.players i) :
    ∃ log', Dealt good t ctx log (dealPlayer t ctx i) log' := by
  rw [dealPlayer]
  split_ifs with hplays
  · rw [Bool.and_eq_true] at hplays
    have heq : ctx.setPlayer i (ctx.players i).clearSentence = ctx := by
      rw [hclear]
      simp [Ctx.setPlayer]
    have hissue := dealt_issueNextSentence good log ctx i (by rw [heq]; exact horder) hstate
      hplays.1 hplays.2 ht
    rwa [heq] at hissue
  · exact ⟨log, .refl⟩

theorem players_dealPlayer_of_ne {i j : Fin maxRoomPlayers} (h : j ≠ i) :
    (dealPlayer t ctx i).players j = ctx.players j := by
  rw [dealPlayer]
  split_ifs
  · exact players_issueNextSentence_of_ne _ _ h
  · rfl

/-- The first sentences of a game. -/
theorem dealt_dealPlayers (horder : Orderly ctx) (hstate : ctx.room.state = .playing)
    (ht : t = 0 → ctx.lastTickMs = 0)
    (hclear : ∀ i, (ctx.players i).clearSentence = ctx.players i) :
    ∃ log', Dealt good t ctx log (slots.foldl (dealPlayer t) ctx) log' := by
  refine dealt_foldl (fun ctx i => (ctx.players i).clearSentence = ctx.players i)
    (fun _ horder hstate ht hclear => dealt_dealPlayer horder hstate ht hclear) ?_
    (List.nodup_finRange _) horder hstate ht fun i _ => hclear i
  intro ctx i j hne hj
  rwa [players_dealPlayer_of_ne hne]

theorem quiet_finishPlayer (hstate : ctx.room.state = .result) (i : Fin maxRoomPlayers) :
    Quiet good ctx (finishPlayer ctx i) ∧ (finishPlayer ctx i).room = ctx.room := by
  rw [finishPlayer]
  simp only
  by_cases hplays : ((ctx.players i).occupied &&
      decide ((ctx.players i).finishStatus = .none)) = true
  · rw [if_pos hplays]
    have hfinish : Quiet good ctx (ctx.setPlayer i ((ctx.players i).finished ctx.room)) :=
      .shift (.finish i hstate)
    rw [Player.finished] at hfinish
    by_cases hexpires : (ctx.players i).activeSentenceId ≠ 0 ∧
        (ctx.players i).sentenceDeadlineMs ≤ ctx.room.gameEndMs
    · simp only [if_pos hexpires] at hfinish ⊢
      refine ⟨hfinish.trans ?_, rfl⟩
      exact .event trivial
    · simp only [if_neg hexpires] at hfinish ⊢
      exact ⟨hfinish, rfl⟩
  · rw [if_neg hplays]
    exact ⟨.refl, rfl⟩

theorem quiet_finishPlayers (hstate : ctx.room.state = .result) (is : List (Fin maxRoomPlayers)) :
    Quiet good ctx (is.foldl finishPlayer ctx) := by
  induction is generalizing ctx with
  | nil => exact .refl
  | cons i is ih =>
      have hfirst : Quiet good ctx (finishPlayer ctx i) ∧ _ := quiet_finishPlayer hstate i
      exact hfirst.1.trans (ih (hfirst.2 ▸ hstate))

end Dealt

/-! ### Every call is a chain of moves -/

theorem tick_result (room : Room) (t : UInt64) :
    ((room.tick t).1 = .gameStarted → room.state = .countdown ∧ (room.tick t).2.state = .playing) ∧
      ((room.tick t).1 = .gameEnded → (room.tick t).2.state = .result) := by
  have hcountdown : ((room.tickCountdown t).1 = .gameStarted →
      (room.tickCountdown t).2.state = .playing) ∧
      ((room.tickCountdown t).1 = .gameEnded → (room.tickCountdown t).2.state = .result) := by
    rw [Room.tickCountdown]
    simp only
    split_ifs
    · exact ⟨by simp, fun _ => rfl⟩
    · split
      · exact ⟨by simp, fun _ => rfl⟩
      · split_ifs
        · exact ⟨by simp, fun _ => rfl⟩
        · exact ⟨fun _ => rfl, by simp⟩
  rw [Room.tick]
  split
  · rename_i hstate
    split_ifs
    · exact ⟨fun h => ⟨hstate, hcountdown.1 h⟩, hcountdown.2⟩
    · exact ⟨by simp, by simp⟩
  · split_ifs
    · exact ⟨by simp, fun _ => rfl⟩
    · simp only
      split_ifs
      · exact ⟨by simp, by simp⟩
      · exact ⟨by simp, by simp⟩
  · exact ⟨by simp, by simp⟩

/-- The record of a chain within a call. -/
theorem record_eq {good : Room → UInt64 → Prop} {ctx ctx₀ : Ctx} {op : Op} {log log' : Log}
    (hplayers : ctx₀.players = ctx.players) (hsent : ctx₀.sent = ctx.sent)
    (h : Dealt good (ctx.clock op.nowMs) ctx₀ log (op.exec ctx) log') (i : Fin maxRoomPlayers)
    (hi : ((op.exec ctx).players i).occupied = true) : log' i = record ctx op log i := by
  obtain ⟨evs, hevs, hlog⟩ := h.record
  have hocc : (ctx.players i).occupied = true := by
    rw [← hplayers, ← (seat_congr (seat_of_lobby h.lobby i)).1]
    exact hi
  rw [record, if_pos hocc, hlog i (by rw [hplayers]; exact hocc), hplayers, h.room, hevs, hsent,
    List.drop_left]

theorem moves_of_quiet {good : Room → UInt64 → Prop} {ctx : Ctx} {op : Op}
    (h : Quiet good ctx (op.exec ctx)) (log : Log) :
    ∃ log', Moves good ctx log (op.exec ctx) log' ∧
      ∀ i, ((op.exec ctx).players i).occupied = true → log' i = record ctx op log i := by
  obtain ⟨evs, hplain, hsent⟩ := h.events
  refine ⟨log, h.moves log, fun i hi => ?_⟩
  rw [record, if_pos (h.seats i hi), hsent, List.drop_left, dropsTo_plain hplain, List.append_nil]

theorem moves_join {good : Room → UInt64 → Prop} (ctx : Ctx) (conn : Conn) (log : Log) :
    ∃ log', Moves good ctx log ((Op.join (some conn)).exec ctx) log' ∧
      ∀ i, (((Op.join (some conn)).exec ctx).players i).occupied = true →
        log' i = record ctx (.join (some conn)) log i := by
  -- A refusal is an error event; otherwise the player sits down first.
  obtain hquiet | ⟨i, hstate, hfree, hfresh, hquiet⟩ :
      Quiet good ctx ((Op.join (some conn)).exec ctx) ∨
        ∃ i, ctx.room.state = .waiting ∧ (ctx.players i).occupied = false ∧
          (∀ j, (ctx.players j).occupied = true → (ctx.players j).connPtr ≠ some conn) ∧
          Quiet good (ctx.setPlayer i (newcomer (UInt32.ofNat (i + 1)) ctx.nextJoinSeq conn))
            ((Op.join (some conn)).exec ctx) := by
    rw [Op.exec, join]
    by_cases hstate : ctx.room.state ≠ .waiting
    · rw [if_pos hstate]
      exact .inl .error
    rw [if_neg hstate]
    by_cases hjoined : (findPlayerByConn ctx conn).isSome = true
    · rw [if_pos hjoined]
      exact .inl .error
    rw [if_neg hjoined]
    split
    · exact .inl .error
    · rename_i i hi
      have hfree : (ctx.players i).occupied = false := by simpa using List.find?_some hi
      refine .inr ⟨i, not_not.mp hstate, hfree, fun j hj hptr => hjoined ?_, ?_⟩
      · rw [findPlayerByConn, List.find?_isSome]
        exact ⟨j, List.mem_finRange j, by simp [hj, hptr]⟩
      · have hbook : Shift good
            (ctx.setPlayer i (newcomer (UInt32.ofNat (i + 1)) ctx.nextJoinSeq conn)) _ :=
          .book (ctx.activePlayerCount + 1) (ctx.nextJoinSeq + 1)
        refine (Quiet.shift hbook).trans (quiet_recalculateHost.trans (.trans ?_ .config))
        exact .event trivial
  · exact moves_of_quiet hquiet log
  · obtain ⟨evs, hplain, hsent⟩ := hquiet.events
    refine ⟨_, .head (.seat i conn _ _ hstate hfree hfresh) (hquiet.moves _), fun j hj => ?_⟩
    by_cases hji : j = i
    · subst hji
      rw [Function.update_self, record, if_neg (by simp [hfree])]
    · have hocc := hquiet.seats j hj
      rw [players_setPlayer_of_ne _ _ hji] at hocc
      have hsame : ((Op.join (some conn)).exec ctx).sent = ctx.sent ++ evs := hsent
      rw [Function.update_of_ne hji, record, if_pos hocc, hsame, List.drop_left,
        dropsTo_plain hplain, List.append_nil]

section Tick

variable {ctx passed : Ctx} {nowMs : UInt64} (hpassed : ({ ctx with
    lastTickMs := ctx.clock nowMs, room := (ctx.room.tick (ctx.clock nowMs)).2 } : Ctx) = passed)
include hpassed

theorem tick_of_gameStarted (hres : (ctx.room.tick (ctx.clock nowMs)).1 = .gameStarted) :
    (Op.tick nowMs).exec ctx =
      tickDeadlines (slots.foldl (dealPlayer (ctx.clock nowMs)) (emitRoomConfig (emitEvent
        passed none (.gameState .playing passed.room.currentPhase
          (gameRemainingMs passed.room (ctx.clock nowMs)))) none)) (ctx.clock nowMs) := by
  rw [Ctx.clock] at hres
  simp only [Op.exec, tick, hres, ← hpassed]
  rfl

theorem tick_of_phaseChanged (hres : (ctx.room.tick (ctx.clock nowMs)).1 = .phaseChanged) :
    (Op.tick nowMs).exec ctx =
      tickDeadlines (emitEvent passed none (.phaseChanged passed.room.currentPhase
        (passed.room.sentenceTimeoutMs (ctx.clock nowMs))
        (gameRemainingMs passed.room (ctx.clock nowMs)))) (ctx.clock nowMs) := by
  rw [Ctx.clock] at hres
  simp only [Op.exec, tick, hres, ← hpassed]
  rfl

theorem tick_of_gameEnded (hres : (ctx.room.tick (ctx.clock nowMs)).1 = .gameEnded) :
    (Op.tick nowMs).exec ctx =
      emitRoomConfig (emitEvent (emitEvent (slots.foldl finishPlayer passed) none
        (.gameOver "NORMAL_END")) none
        (.finalRanking (finalRanking (slots.foldl finishPlayer passed).players))) none := by
  rw [Ctx.clock] at hres
  simp only [Op.exec, tick, hres, ← hpassed]
  rfl

theorem tick_of_none (hres : (ctx.room.tick (ctx.clock nowMs)).1 = .none) :
    (Op.tick nowMs).exec ctx = tickDeadlines passed (ctx.clock nowMs) := by
  rw [Ctx.clock] at hres
  simp only [Op.exec, tick, hres, ← hpassed]
  rfl

end Tick

theorem moves_tick {good : Room → UInt64 → Prop} {ctx : Ctx} (horder : Orderly ctx)
    (nowMs : UInt64) (hgood : good ctx.room (ctx.clock nowMs)) (log : Log) :
    ∃ log', Moves good ctx log ((Op.tick nowMs).exec ctx) log' ∧
      ∀ i, (((Op.tick nowMs).exec ctx).players i).occupied = true →
        log' i = record ctx (.tick nowMs) log i := by
  -- First the clock, then the slots.
  generalize hpassed : ({ ctx with
    lastTickMs := ctx.clock nowMs, room := (ctx.room.tick (ctx.clock nowMs)).2 } : Ctx) = passed
  have hpass : Shift good ctx passed := by
    rw [← hpassed]
    exact .pass _ clock_eq_zero hgood
  have horder' := horder.shift hpass
  have hplayers : passed.players = ctx.players := by rw [← hpassed]
  have hsent : passed.sent = ctx.sent := by rw [← hpassed]
  have ht : ctx.clock nowMs = 0 → passed.lastTickMs = 0 := by
    rw [← hpassed]
    exact id
  obtain ⟨hstarted, hended⟩ := tick_result ctx.room (ctx.clock nowMs)
  by_cases hover : (ctx.room.tick (ctx.clock nowMs)).1 = .gameEnded
  · have hstate : passed.room.state = .result := by
      rw [← hpassed]
      exact hended hover
    refine moves_of_quiet ?_ log
    rw [tick_of_gameEnded hpassed hover]
    refine (Quiet.shift hpass).trans ((quiet_finishPlayers hstate slots).trans (.trans ?_ .config))
    refine .trans ?_ (.event trivial)
    exact .event trivial
  suffices hdealt : ∃ log', Dealt good (ctx.clock nowMs) passed log ((Op.tick nowMs).exec ctx) log' by
    obtain ⟨log', hdealt⟩ := hdealt
    exact ⟨log', .shift hpass hdealt.moves, record_eq hplayers hsent hdealt⟩
  cases hres : (ctx.room.tick (ctx.clock nowMs)).1 with
  | gameStarted =>
      rw [tick_of_gameStarted hpassed hres]
      obtain ⟨hcountdown, hplaying⟩ := hstarted hres
      have hclear : ∀ i, (passed.players i).clearSentence = passed.players i := by
        rw [hplayers]
        exact horder.idle (.inr hcountdown)
      have hstate : passed.room.state = .playing := by
        rw [← hpassed]
        exact hplaying
      have hstart : Dealt good (ctx.clock nowMs) passed log (emitEvent passed none
          (.gameState .playing passed.room.currentPhase
            (gameRemainingMs passed.room (ctx.clock nowMs)))) log :=
        .tell (plain_singleton trivial)
      have htold : Dealt good (ctx.clock nowMs) passed log (emitRoomConfig (emitEvent
          passed none (.gameState .playing passed.room.currentPhase
            (gameRemainingMs passed.room (ctx.clock nowMs)))) none) log :=
        hstart.trans (.tell (plain_singleton trivial))
      obtain ⟨log₁, hdeal⟩ := dealt_dealPlayers (htold.orderly horder') hstate ht hclear
      have hfirst := htold.trans hdeal
      obtain ⟨log₂, hdeadlines⟩ := dealt_tickDeadlines (hfirst.orderly horder')
        (by rw [hfirst.clock]; exact ht)
      exact ⟨log₂, hfirst.trans hdeadlines⟩
  | phaseChanged =>
      rw [tick_of_phaseChanged hpassed hres]
      have htold : Dealt good (ctx.clock nowMs) passed log (emitEvent passed none
          (.phaseChanged passed.room.currentPhase
            (passed.room.sentenceTimeoutMs (ctx.clock nowMs))
            (gameRemainingMs passed.room (ctx.clock nowMs)))) log :=
        .tell (plain_singleton trivial)
      obtain ⟨log₁, hdeadlines⟩ := dealt_tickDeadlines (htold.orderly horder') ht
      exact ⟨log₁, htold.trans hdeadlines⟩
  | gameEnded => exact absurd hres hover
  | none =>
      rw [tick_of_none hpassed hres]
      exact dealt_tickDeadlines horder' ht

/-- **Every call is a chain of moves**, and the record of the chain is that of the call. -/
theorem exec_moves {good : Room → UInt64 → Prop} {ctx : Ctx} (horder : Orderly ctx) (op : Op)
    (hgood : ∀ t, op = .tick t → good ctx.room (ctx.clock t)) (log : Log) :
    ∃ log', Moves good ctx log (op.exec ctx) log' ∧
      ∀ i, ((op.exec ctx).players i).occupied = true → log' i = record ctx op log i := by
  cases op with
  | join conn =>
      cases conn with
      | none => exact moves_of_quiet .refl log
      | some conn => exact moves_join ctx conn log
  | setLanguage conn lang =>
      cases conn with
      | none => exact moves_of_quiet .refl log
      | some conn => exact moves_of_quiet (quiet_setLanguage conn lang) log
  | setDuration conn minutes =>
      cases conn with
      | none => exact moves_of_quiet .refl log
      | some conn => exact moves_of_quiet (quiet_setDuration conn minutes) log
  | setReady conn =>
      cases conn with
      | none => exact moves_of_quiet .refl log
      | some conn => exact moves_of_quiet (quiet_setReady conn) log
  | prepareStart db conn =>
      cases conn with
      | none => exact moves_of_quiet .refl log
      | some conn => exact moves_of_quiet (quiet_prepareStart db conn) log
  | abortStart => exact moves_of_quiet quiet_abortStart log
  | startGame conn nowMs =>
      cases conn with
      | none => exact moves_of_quiet .refl log
      | some conn => exact moves_of_quiet (quiet_startGame conn nowMs) log
  | submit conn sentenceId input nowMs =>
      cases conn with
      | none => exact moves_of_quiet .refl log
      | some conn =>
          obtain ⟨log', hdealt⟩ := dealt_submit horder conn sentenceId input nowMs
          exact ⟨log', hdealt.moves, record_eq rfl rfl hdealt⟩
  | disconnect conn nowMs =>
      cases conn with
      | none => exact moves_of_quiet .refl log
      | some conn => exact moves_of_quiet (quiet_disconnect conn nowMs) log
  | tick nowMs => exact moves_tick horder nowMs (hgood nowMs rfl) log

/-- A run all of whose ticks are looked at. -/
def GoodRun (good : Room → UInt64 → Prop) : Ctx → List Op → Prop
  | _, [] => True
  | ctx, op :: ops =>
      (∀ t, op = .tick t → good ctx.room (ctx.clock t)) ∧ GoodRun good (op.exec ctx) ops

theorem goodRun_true (ctx : Ctx) (ops : List Op) : GoodRun (fun _ _ => True) ctx ops := by
  induction ops generalizing ctx with
  | nil => trivial
  | cons op ops ih => exact ⟨fun _ _ => trivial, ih _⟩

/-- **The invariant rule for runs.** What holds of a context and its record, reads the record of
the occupied slots only and is kept by every move is kept by every run. -/
theorem run_moves {good : Room → UInt64 → Prop} {P : Ctx → Log → Prop}
    (hmove : ∀ {ctx log ctx' log'}, Orderly ctx → P ctx log → Move good ctx log ctx' log' →
      P ctx' log')
    (hlog : ∀ {ctx log log'}, P ctx log →
      (∀ i, (ctx.players i).occupied = true → log' i = log i) → P ctx log')
    {ctx : Ctx} (log : Log) {ops : List Op} (hops : GoodRun good ctx ops) (horder : Orderly ctx)
    (h : P ctx log) : Orderly (run ctx ops) ∧ P (run ctx ops) (logOf ctx log ops) := by
  induction ops generalizing ctx log with
  | nil => exact ⟨horder, h⟩
  | cons op ops ih =>
      obtain ⟨log', hmoves, hrecord⟩ := exec_moves horder op hops.1 log
      have hboth : Orderly (op.exec ctx) ∧ P (op.exec ctx) log' :=
        hmoves.invariant (P := fun ctx log => Orderly ctx ∧ P ctx log)
          (fun h hm => ⟨h.1.move hm, hmove h.1 h.2 hm⟩) ⟨horder, h⟩
      exact ih _ hops.2 hboth.1 (hlog hboth.2 fun i hi => (hrecord i hi).symm)

/-! ### The rooms of a run -/

theorem Room.Reachable.shift {good : Room → UInt64 → Prop} {ctx ctx' : Ctx}
    (h : ctx.room.Reachable) (hshift : Shift good ctx ctx') : ctx'.room.Reachable := by
  cases hshift with
  | configure lang locked host hlang => exact .configure lang locked host h
  | duration minutes room hroom => exact .setDuration h hroom
  | countdown t room ht hloaded hroom => exact .startCountdown h hroom
  | cancel t hstate => exact .cancelCountdown t h
  | clear t =>
      have hclear := Room.Reachable.clear t h
      have hroom : (resetEmptyRoom ctx t).room =
          ((ctx.room.cleared t).setDurationMinutes 3).getD (ctx.room.cleared t) := rfl
      rw [hroom]
      cases hduration : (ctx.room.cleared t).setDurationMinutes 3 with
      | none => exact hclear
      | some room => exact .setDuration hclear hduration
  | dropOut i t hstate =>
      rw [dropOut_eq]
      exact h
  | pass t ht hgood => exact .tick t h
  | _ => exact h

theorem Room.Reachable.move {good : Room → UInt64 → Prop} {ctx ctx' : Ctx} {log log' : Log}
    (h : ctx.room.Reachable) (hmove : Move good ctx log ctx' log') : ctx'.room.Reachable := by
  cases hmove with
  | shift hshift => exact h.shift hshift
  | seat => exact h
  | deal => exact h

/-- **The room of a running context is one of the program's rooms.** -/
theorem reachable_run (roomId : UInt64) (profile : Profile) (ops : List Op) :
    (run (Ctx.init roomId profile) ops).room.Reachable :=
  (run_moves (P := fun ctx _ => ctx.room.Reachable) (fun _ h hmove => h.move hmove) (fun h _ => h)
    (fun _ => []) (goodRun_true _ ops) (.init roomId profile) (.init roomId profile)).2

end ToosType
