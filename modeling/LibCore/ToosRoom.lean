import LibCore.Bytes

/-!
# ToosType: The Room

`toos_type_types.h` and `toos_type_room.c`: the clock of a room. A room waits for players,
counts down, plays its three phases and shows the result; times are milliseconds of a
monotonic clock, in the widths of the source.

## Main definitions

* `Profile`, `Room`: the settings of a game and the state of a room.
* `Room.phaseAt`, `Room.startCountdown`, `Room.cancelCountdown`, `Room.tick`: the clock.
-/

namespace ToosType

/-- `TOOS_TYPE_MAX_ROOM_PLAYERS`. -/
abbrev maxRoomPlayers : ℕ := 8

/-- `TOOS_TYPE_MIN_ROOM_PLAYERS`. -/
def minRoomPlayers : ℕ := 2

/-- `TOOS_TYPE_MAX_PHASES`, also `TOOS_TYPE_DIFFICULTY_COUNT`. -/
abbrev maxPhases : ℕ := 3

/-- `UINT64_MAX`. -/
def uint64Max : UInt64 := 0xFFFFFFFFFFFFFFFF

/-- `UINT32_MAX`. -/
def uint32Max : UInt32 := 0xFFFFFFFF

/-- `ToosTypeLanguage`. -/
inductive Language
  | none
  | en
  | ko
deriving DecidableEq

/-- `ToosTypeState`. -/
inductive GameState
  | waiting
  | countdown
  | playing
  | result
deriving DecidableEq

/-- `ToosTypeFinishStatus`. -/
inductive FinishStatus
  | none
  | finished
  | dnf
deriving DecidableEq

/-- `ToosTypePhaseProfile`. -/
structure PhaseProfile where
  durationMs : UInt32
  inputTimeoutMs : UInt32
  correctScore : UInt32
deriving DecidableEq

/-- `ToosTypeGameProfile`. -/
structure Profile where
  countdownMs : UInt32
  randomSeed : UInt64
  playScorePerSec : UInt32
  accuracyScoreMultiplier : UInt32
  phases : Fin maxPhases → PhaseProfile
deriving DecidableEq

/-- `ToosTypeRoomTickResult`. -/
inductive TickResult
  | none
  | gameStarted
  | phaseChanged
  | gameEnded
deriving DecidableEq

/-- `ToosTypeRoom`. -/
structure Room where
  roomId : UInt64
  profile : Profile
  state : GameState
  language : Language
  languageLocked : Bool
  hostPlayerNo : UInt32
  stateStartMs : UInt64
  gameStartMs : UInt64
  gameEndMs : UInt64
  countdownEndsAtMs : UInt64
  currentPhase : UInt32
deriving DecidableEq

namespace Room

/-- `make_deadline`. -/
def makeDeadline (nowMs durationMs : UInt64) : Option UInt64 :=
  if uint64Max - nowMs < durationMs then .none else some (nowMs + durationMs)

/-- `ToosTypeRoom_init`. -/
def init (roomId : UInt64) (profile : Profile) : Room where
  roomId := roomId
  profile := profile
  state := .waiting
  language := .none
  languageLocked := false
  hostPlayerNo := 0
  stateStartMs := 0
  gameStartMs := 0
  gameEndMs := 0
  countdownEndsAtMs := 0
  currentPhase := 0

/-- The loop of `ToosTypeRoom_total_duration_ms`, from a total on. -/
def totalDurationLoop : UInt64 → List PhaseProfile → UInt64
  | total, [] => total
  | total, phase :: phases =>
      if uint64Max - total < phase.durationMs.toUInt64 then 0
      else totalDurationLoop (total + phase.durationMs.toUInt64) phases

/-- `ToosTypeRoom_total_duration_ms`. -/
def totalDurationMs (self : Room) : UInt64 :=
  totalDurationLoop 0 ((List.finRange maxPhases).map self.profile.phases)

/-- `ToosTypeRoom_set_duration_minutes`: the room afterwards, or `none` for `false`. -/
def setDurationMinutes (self : Room) (minutes : UInt32) : Option Room :=
  if self.state ≠ .waiting then .none
  else if minutes < 1 ∨ minutes > 5 then .none
  else
    let totalMs := minutes * 60 * 1000
    let phaseMs := totalMs / 3
    some { self with profile := { self.profile with
      phases := fun i => { self.profile.phases i with durationMs := phaseMs } } }

/-- The loop of `ToosTypeRoom_phase_at`, with the sum of the durations so far and the number of
the next phase. -/
def phaseLoop (elapsed : UInt64) : UInt64 → UInt32 → List PhaseProfile → UInt32
  | _, _, [] => 3
  | cumulative, phase, p :: phases =>
      let cumulative := cumulative + p.durationMs.toUInt64
      if elapsed < cumulative then phase else phaseLoop elapsed cumulative (phase + 1) phases

/-- `ToosTypeRoom_phase_at`. -/
def phaseAt (self : Room) (nowMs : UInt64) : UInt32 :=
  if self.gameStartMs = 0 ∨ nowMs ≤ self.gameStartMs then 1
  else
    phaseLoop (nowMs - self.gameStartMs) 0 1 ((List.finRange maxPhases).map self.profile.phases)

/-- The index of a phase from 1 to 3. -/
def phaseIndex (phase : UInt32) : Option (Fin maxPhases) :=
  if h : 1 ≤ phase.toNat ∧ phase.toNat ≤ maxPhases then some ⟨phase.toNat - 1, by omega⟩
  else .none

/-- `ToosTypeRoom_sentence_timeout_ms`. -/
def sentenceTimeoutMs (self : Room) (nowMs : UInt64) : UInt64 :=
  match phaseIndex (self.phaseAt nowMs) with
  | .none => 0
  | some i => (self.profile.phases i).inputTimeoutMs.toUInt64

/-- `ToosTypeRoom_start_countdown`. -/
def startCountdown (self : Room) (nowMs : UInt64) : Option Room :=
  if self.state ≠ .waiting then .none
  else
    match makeDeadline nowMs self.profile.countdownMs.toUInt64 with
    | .none => .none
    | some deadline =>
        some { self with state := .countdown, stateStartMs := nowMs, countdownEndsAtMs := deadline }

/-- `ToosTypeRoom_cancel_countdown`. -/
def cancelCountdown (self : Room) (nowMs : UInt64) : Room :=
  if self.state ≠ .countdown then self
  else
    { self with state := .waiting, stateStartMs := nowMs, countdownEndsAtMs := 0, gameStartMs := 0,
                gameEndMs := 0, currentPhase := 0 }

/-- The end of the countdown. -/
def tickCountdown (self : Room) (nowMs : UInt64) : TickResult × Room :=
  let self := { self with gameStartMs := self.countdownEndsAtMs }
  let totalDuration := self.totalDurationMs
  if totalDuration = 0 then (.gameEnded, { self with state := .result, stateStartMs := nowMs })
  else
    match makeDeadline self.gameStartMs totalDuration with
    | .none => (.gameEnded, { self with state := .result, stateStartMs := nowMs })
    | some gameEnd =>
        let self := { self with gameEndMs := gameEnd }
        if nowMs ≥ gameEnd then
          (.gameEnded, { self with state := .result, stateStartMs := gameEnd, currentPhase := 3 })
        else
          (.gameStarted, { self with state := .playing, stateStartMs := self.gameStartMs,
                                     currentPhase := self.phaseAt nowMs })

/-- `ToosTypeRoom_tick`. -/
def tick (self : Room) (nowMs : UInt64) : TickResult × Room :=
  match self.state with
  | .countdown => if nowMs ≥ self.countdownEndsAtMs then self.tickCountdown nowMs else (.none, self)
  | .playing =>
      if nowMs ≥ self.gameEndMs then
        (.gameEnded, { self with state := .result, stateStartMs := self.gameEndMs })
      else
        let newPhase := self.phaseAt nowMs
        if newPhase ≠ self.currentPhase then (.phaseChanged, { self with currentPhase := newPhase })
        else (.none, self)
  | _ => (.none, self)

/-! ### What the clock can do -/

theorem tickCountdown_spec (self : Room) (nowMs : UInt64) :
    (self.tickCountdown nowMs).2.languageLocked = self.languageLocked ∧
      (self.tickCountdown nowMs).2.hostPlayerNo = self.hostPlayerNo ∧
      ((self.tickCountdown nowMs).2.state = .playing ∨
        (self.tickCountdown nowMs).2.state = .result) := by
  rw [tickCountdown]
  simp only
  split_ifs with hzero
  · exact ⟨rfl, rfl, .inr rfl⟩
  · split
    · exact ⟨rfl, rfl, .inr rfl⟩
    · split_ifs with hlate
      · exact ⟨rfl, rfl, .inr rfl⟩
      · exact ⟨rfl, rfl, .inl rfl⟩

/-- The clock leaves everything but times, phase and state alone, and moves the state forward
from a countdown or a game only. -/
theorem tick_spec (self : Room) (nowMs : UInt64) :
    (self.tick nowMs).2.languageLocked = self.languageLocked ∧
      (self.tick nowMs).2.hostPlayerNo = self.hostPlayerNo ∧
      ((self.tick nowMs).2.state = self.state ∨
        self.state = .countdown ∧ (self.tick nowMs).2.state = .playing ∨
        (self.state = .countdown ∨ self.state = .playing) ∧ (self.tick nowMs).2.state = .result) := by
  rw [tick]
  split
  · rename_i hstate
    split_ifs with hend
    · obtain ⟨hlock, hhost, hplaying | hresult⟩ := self.tickCountdown_spec nowMs
      · exact ⟨hlock, hhost, .inr (.inl ⟨hstate, hplaying⟩)⟩
      · exact ⟨hlock, hhost, .inr (.inr ⟨.inl hstate, hresult⟩)⟩
    · exact ⟨rfl, rfl, .inl rfl⟩
  · rename_i hstate
    split_ifs with hend
    · exact ⟨rfl, rfl, .inr (.inr ⟨.inr hstate, rfl⟩)⟩
    · simp only
      split_ifs with hphase
      · exact ⟨rfl, rfl, .inl rfl⟩
      · exact ⟨rfl, rfl, .inl rfl⟩
  · exact ⟨rfl, rfl, .inl rfl⟩

end Room

end ToosType
