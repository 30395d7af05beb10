import LibCore.ToosMoves

/-!
# ToosType: Played Time

The time a player has played is a difference of times of the room, computed in three places: with
every score, at a disconnect and at the end of the game. It is at most the length of the game as
long as every game has a beginning and an end. A game without a length, or one that would end
after the last time there is, has none: the tick that ends its countdown sets a beginning only,
and the end of the game subtracts that from zero.

## Main results

* `played_bounded`: the bound, for every run in which no such game starts.
* `played_wraps`: a game without a length.
-/

namespace ToosType

/-- If a tick ends a countdown, the game has a length and an end. -/
def EndsWell (room : Room) (t : UInt64) : Prop :=
  room.state = .countdown → room.countdownEndsAtMs ≤ t →
    room.profile.total ≠ 0 ∧ room.countdownEndsAtMs.toNat + room.profile.total < 2 ^ 64

/-- The time and the score for it are within the length of the game. -/
structure Player.Within (p : Player) (room : Room) : Prop where
  played : p.playedMs.toNat ≤ room.profile.total
  score : p.playScore.toNat ≤ room.profile.total * room.profile.playScorePerSec.toNat / 1000

/-- A player that has not played. -/
structure Player.Unplayed (p : Player) : Prop where
  played : p.playedMs = 0
  score : p.playScore = 0

theorem Player.Unplayed.within {p : Player} (h : p.Unplayed) (room : Room) : p.Within room :=
  ⟨by rw [h.played]; exact Nat.zero_le _, by rw [h.score]; exact Nat.zero_le _⟩

/-- The times of a room, and the time every player has played. -/
structure Measured (ctx : Ctx) : Prop where
  timed : ctx.room.Timed
  result : ctx.room.state = .result →
    ctx.room.gameEndMs.toNat = ctx.room.gameStartMs.toNat + ctx.room.profile.total
  idle : ctx.room.state = .waiting ∨ ctx.room.state = .countdown →
    ∀ i, (ctx.players i).Unplayed
  within : ∀ i, (ctx.players i).Within ctx.room

theorem saturate_le (v : UInt64) : (saturate v).toNat ≤ v.toNat := by
  rw [saturate]
  split_ifs with h
  · exact (UInt64.le_iff_toNat_le.mp (UInt64.le_of_lt h))
  · rw [UInt64.toNat_toUInt32]
    exact Nat.mod_le _ _

/-- The score is within bounds if the time is. -/
theorem playScore_le {room : Room} {playedMs : UInt64} (h : playedMs.toNat ≤ room.profile.total) :
    (saturate (playedMs * room.profile.playScorePerSec.toUInt64 / 1000)).toNat ≤
      room.profile.total * room.profile.playScorePerSec.toNat / 1000 := by
  calc (saturate (playedMs * room.profile.playScorePerSec.toUInt64 / 1000)).toNat
      ≤ (playedMs * room.profile.playScorePerSec.toUInt64 / 1000).toNat := saturate_le _
    _ = playedMs.toNat * room.profile.playScorePerSec.toNat % 2 ^ 64 / 1000 := by
        rw [UInt64.toNat_div, UInt64.toNat_mul, UInt32.toNat_toUInt64]
        rfl
    _ ≤ playedMs.toNat * room.profile.playScorePerSec.toNat / 1000 :=
        Nat.div_le_div_right (Nat.mod_le _ _)
    _ ≤ room.profile.total * room.profile.playScorePerSec.toNat / 1000 :=
        Nat.div_le_div_right (Nat.mul_le_mul_right _ h)

/-- The length of a game is the difference of its times. -/
theorem toNat_gameEnd_sub {room : Room}
    (h : room.gameEndMs.toNat = room.gameStartMs.toNat + room.profile.total) :
    (room.gameEndMs - room.gameStartMs).toNat = room.profile.total := by
  have hle : room.gameStartMs ≤ room.gameEndMs := UInt64.le_iff_toNat_le.mpr (by omega)
  rw [UInt64.toNat_sub_of_le _ _ hle]
  omega

theorem within_updatePlayerStats {room : Room} {p : Player} (t : UInt64)
    (hend : room.gameEndMs.toNat = room.gameStartMs.toNat + room.profile.total)
    (h : p.playedMs.toNat ≤ room.profile.total) : (updatePlayerStats room p t).Within room := by
  have hplayed : (updatePlayerStats room p t).playedMs.toNat ≤ room.profile.total := by
    have hlength := toNat_gameEnd_sub hend
    simp only [updatePlayerStats]
    split_ifs with hcounts hlate hcap
    · exact hlength.le
    · rw [gt_iff_lt, UInt64.lt_iff_toNat_lt, hlength] at hcap
      exact Nat.not_lt.mp hcap
    · exact h
    · exact h
  exact ⟨hplayed, playScore_le hplayed⟩

theorem within_judged {room : Room} {p : Player} (k : Fin maxPhases) (input : CString.Bytes)
    (jres : JudgeResult) (t : UInt64)
    (hend : room.gameEndMs.toNat = room.gameStartMs.toNat + room.profile.total)
    (h : p.Within room) : (p.judged room k input jres t).Within room := by
  refine within_updatePlayerStats t hend ?_
  cases jres <;> exact h.played

theorem Player.Within.retired {room : Room} {p : Player} (h : p.Within room) :
    p.advanceCursor.clearSentence.Within room := by
  rw [Player.advanceCursor]
  split
  · exact ⟨h.played, h.score⟩
  · exact ⟨h.played, h.score⟩

theorem within_finished {room : Room} {p : Player}
    (hend : room.gameEndMs.toNat = room.gameStartMs.toNat + room.profile.total) :
    (p.finished room).Within room := within_updatePlayerStats _ hend (toNat_gameEnd_sub hend).le

theorem within_droppedOut {room : Room} {p : Player} (t : UInt64)
    (hend : room.gameEndMs.toNat = room.gameStartMs.toNat + room.profile.total)
    (h : p.Within room) : (p.droppedOut room t).Within room := by
  rw [Player.droppedOut]
  by_cases hfinish : p.finishStatus = .none
  · rw [if_pos hfinish]
    refine within_updatePlayerStats t hend ?_
    generalize hstop : (if t > room.gameEndMs then room.gameEndMs else t) = stop
    have hle : stop.toNat ≤ room.gameEndMs.toNat := by
      rw [← hstop]
      split_ifs with hlate
      · exact Nat.le_refl _
      · exact UInt64.le_iff_toNat_le.mp (UInt64.not_lt.mp hlate)
    show (if stop > room.gameStartMs then stop - room.gameStartMs else 0).toNat ≤ _
    split_ifs with hstart
    · rw [UInt64.toNat_sub_of_le _ _ (UInt64.le_of_lt hstart)]
      omega
    · exact Nat.zero_le _
  · rw [if_neg hfinish]
    exact ⟨h.played, h.score⟩

/-- One player changes. -/
theorem Measured.setPlayer {ctx : Ctx} (h : Measured ctx) (i : Fin maxRoomPlayers) {p : Player}
    (hp : p.Within ctx.room)
    (hidle : ctx.room.state = .waiting ∨ ctx.room.state = .countdown → p.Unplayed) :
    Measured (ctx.setPlayer i p) := by
  have hplayer : ∀ j, (ctx.setPlayer i p).players j = if j = i then p else ctx.players j :=
    fun j => Function.update_apply _ _ _ _
  refine ⟨h.timed, h.result, fun hstate j => ?_, fun j => ?_⟩
  · rw [hplayer]
    split_ifs
    · exact hidle hstate
    · exact h.idle hstate j
  · rw [hplayer]
    split_ifs
    · exact hp
    · exact h.within j

theorem Player.Unplayed.zero : Player.zero.Unplayed := ⟨rfl, rfl⟩

/-- A tick that ends well leaves a result with a beginning and an end. -/
theorem result_of_tick {room : Room} {t : UInt64} (htimed : room.Timed)
    (hresult : room.state = .result →
      room.gameEndMs.toNat = room.gameStartMs.toNat + room.profile.total)
    (hgood : EndsWell room t) (hstate : (room.tick t).2.state = .result) :
    (room.tick t).2.gameEndMs.toNat =
      (room.tick t).2.gameStartMs.toNat + (room.tick t).2.profile.total := by
  obtain heq | ⟨hcountdown, hends, heq⟩ | ⟨hplaying, -, heq⟩ | ⟨hplaying, -, heq⟩ :=
    room.tick_cases t
  · rw [heq] at hstate ⊢
    exact hresult hstate
  · rw [heq]
    obtain ⟨hzero, hlt⟩ := hgood hcountdown hends
    obtain ⟨hbad, -⟩ | ⟨gameEnd, -, hsum, ⟨-, heq⟩ | ⟨phase, -, -, heq⟩⟩ :=
      room.tickCountdown_cases t
    · omega
    · rw [heq]
      exact hsum
    · rw [heq]
      exact hsum
  · rw [heq]
    exact htimed.playing hplaying
  · rw [heq]
    exact htimed.playing hplaying

theorem Measured.gameEnd {ctx : Ctx} (h : Measured ctx)
    (hstate : ctx.room.state = .playing ∨ ctx.room.state = .result) :
    ctx.room.gameEndMs.toNat = ctx.room.gameStartMs.toNat + ctx.room.profile.total :=
  hstate.elim h.timed.playing h.result

/-- **Shifts keep the measure** if the countdowns end well. -/
theorem Measured.shift {ctx ctx' : Ctx} (h : Measured ctx) (hreach : ctx.room.Reachable)
    (hshift : Shift EndsWell ctx ctx') : Measured ctx' := by
  have htimed := (hreach.shift hshift).timed
  have hactive : ctx.room.state = .playing ∨ ctx.room.state = .result →
      ¬ (ctx.room.state = .waiting ∨ ctx.room.state = .countdown) := by
    rintro (hs | hs) <;> simp [hs]
  cases hshift with
  | tell evs hplain => exact ⟨htimed, h.result, h.idle, h.within⟩
  | book count seq => exact ⟨htimed, h.result, h.idle, h.within⟩
  | configure lang locked host hlang =>
      exact ⟨htimed, h.result, h.idle, fun i => ⟨(h.within i).played, (h.within i).score⟩⟩
  | duration minutes room hroom =>
      obtain ⟨hstate, phases, rfl⟩ := Room.setDurationMinutes_eq hroom
      have hidle := h.idle (.inl hstate)
      exact ⟨htimed, fun hr => absurd (hstate.symm.trans hr) (by simp), fun _ => hidle,
        fun i => (hidle i).within _⟩
  | vacate i hstate => exact h.setPlayer i (Player.Unplayed.zero.within _) fun _ => .zero
  | ready i =>
      refine h.setPlayer i ⟨(h.within i).played, (h.within i).score⟩ fun hstate => ?_
      exact ⟨(h.idle hstate i).played, (h.idle hstate i).score⟩
  | load db spawn hstate hspawn => exact ⟨htimed, h.result, h.idle, h.within⟩
  | unload hstate => exact ⟨htimed, h.result, h.idle, h.within⟩
  | countdown t room ht hloaded hroom =>
      obtain ⟨hstate, deadline, -, rfl⟩ := Room.startCountdown_eq hroom
      have hidle := h.idle (.inl hstate)
      exact ⟨htimed, by simp, fun _ => hidle, fun i => (hidle i).within _⟩
  | cancel t hstate =>
      have hidle := h.idle (.inr hstate)
      exact ⟨htimed, by simp [Room.cancelCountdown, hstate], fun _ => hidle,
        fun i => (hidle i).within _⟩
  | clear t =>
      exact ⟨htimed, by simp [resetEmptyRoom, resetSpawnEngine, Room.setDurationMinutes],
        fun _ _ => .zero, fun _ => Player.Unplayed.zero.within _⟩
  | dropOut i t hstate =>
      rw [dropOut_eq]
      exact h.setPlayer i (within_droppedOut t (h.gameEnd hstate) (h.within i))
        fun hidle => absurd hidle (hactive hstate)
  | pass t ht hgood =>
      refine ⟨htimed, result_of_tick h.timed h.result hgood, fun hs => h.idle (idle_of_tick hs),
        fun i => ?_⟩
      have hprofile := (ctx.room.settings_tick t).1
      exact ⟨by rw [hprofile]; exact (h.within i).played,
        by rw [hprofile]; exact (h.within i).score⟩
  | note i k input t hstate =>
      exact h.setPlayer i (within_judged k input _ t (h.gameEnd (.inl hstate)) (h.within i))
        fun hidle => absurd hidle (hactive (.inl hstate))
  | retire i k input jres t hstate hjres hactive' hk =>
      have hjudged := within_judged k input jres t (h.gameEnd (.inl hstate)) (h.within i)
      exact h.setPlayer i hjudged.retired fun hidle => absurd hidle (hactive (.inl hstate))
  | await i t spawn hstate hclear hspawn =>
      have hspawned : Measured { ctx with spawn := spawn } :=
        ⟨h.timed, h.result, h.idle, h.within⟩
      exact hspawned.setPlayer i ⟨(h.within i).played, (h.within i).score⟩
        fun hidle => absurd hidle (hactive (.inl hstate))
  | finish i hstate =>
      exact h.setPlayer i (within_finished (h.gameEnd (.inr hstate)))
        fun hidle => absurd hidle (hactive (.inr hstate))

theorem Measured.move {ctx ctx' : Ctx} {log log' : Log} (h : Measured ctx)
    (hreach : ctx.room.Reachable) (hmove : Move EndsWell ctx log ctx' log') : Measured ctx' := by
  cases hmove with
  | shift hshift => exact h.shift hreach hshift
  | seat i conn playerNo joinSeq hstate hfree hfresh =>
      exact h.setPlayer i (Player.Unplayed.within ⟨rfl, rfl⟩ _) fun _ => ⟨rfl, rfl⟩
  | deal i t k sent hstate hoccupied hclear ht htime hk hsent =>
      have hspawned : Measured { ctx with spawn := nextSpawn ctx (ctx.players i) t } :=
        ⟨h.timed, h.result, h.idle, h.within⟩
      have hdealt := hspawned.setPlayer i
        (p := (ctx.players i).deal sent (ctx.room.phaseAt t) t (ctx.room.sentenceTimeoutMs t))
        ⟨(h.within i).played, (h.within i).score⟩ fun hidle => absurd hidle (by simp [hstate])
      exact ⟨hdealt.timed, hdealt.result, hdealt.idle, hdealt.within⟩

theorem Measured.init (roomId : UInt64) (profile : Profile) : Measured (Ctx.init roomId profile) :=
  ⟨(Room.Reachable.init roomId profile).timed, by simp [Ctx.init, Room.init], fun _ _ => .zero,
    fun _ => Player.Unplayed.zero.within _⟩

/-- **The time played is at most the length of the game**, in every state of a run in which every
game that starts has a length and an end; and the score for it is bounded accordingly. -/
theorem played_bounded (roomId : UInt64) (profile : Profile) (ops : List Op)
    (hops : GoodRun EndsWell (Ctx.init roomId profile) ops) :
    let ctx := run (Ctx.init roomId profile) ops
    (∀ i, (ctx.players i).playedMs.toNat ≤ ∑ k, (ctx.room.profile.phases k).durationMs.toNat) ∧
      (∀ i, (ctx.players i).playScore.toNat ≤
        (∑ k, (ctx.room.profile.phases k).durationMs.toNat) *
          ctx.room.profile.playScorePerSec.toNat / 1000) ∧
      ctx.room.gameStartMs ≤ ctx.room.gameEndMs := by
  intro ctx
  have hmeasured : ctx.room.Reachable ∧ Measured ctx := by
    refine (run_moves (P := fun ctx _ => ctx.room.Reachable ∧ Measured ctx) ?_ (fun h _ => h)
      (fun _ => []) hops (.init roomId profile) ⟨.init roomId profile, .init roomId profile⟩).2
    intro ctx log ctx' log' _ h hmove
    exact ⟨h.1.move hmove, h.2.move h.1 hmove⟩
  obtain ⟨hreach, h⟩ := hmeasured
  refine ⟨fun i => (h.within i).played, fun i => (h.within i).score, ?_⟩
  rw [UInt64.le_iff_toNat_le]
  cases hstate : ctx.room.state with
  | waiting => rw [(h.timed.idle (.inl hstate)).1]; exact Nat.zero_le _
  | countdown => rw [(h.timed.idle (.inr hstate)).1]; exact Nat.zero_le _
  | playing => have := h.gameEnd (.inl hstate); omega
  | result => have := h.gameEnd (.inr hstate); omega

theorem played_bounded_sample :
    let ctx := run (Ctx.init 1 sampleProfile) (tinyGame ++ [.submit (some 1) 1 [97] 3002])
    (ctx.players 0).playedMs = 1 ∧
      (ctx.players 0).playedMs.toNat ≤ ∑ k, (ctx.room.profile.phases k).durationMs.toNat := by
  have hgood : GoodRun EndsWell (Ctx.init 1 sampleProfile)
      (tinyGame ++ [.submit (some 1) 1 [97] 3002]) := by
    refine ⟨nofun, nofun, nofun, nofun, nofun, nofun, nofun, fun t ht => ?_, nofun, trivial⟩
    cases ht
    exact fun _ _ => ⟨by decide, by decide⟩
  exact ⟨rfl, (played_bounded 1 sampleProfile _ hgood).1 0⟩

/-- A profile without durations. -/
def emptyProfile : Profile := { sampleProfile with phases := fun _ => ⟨0, 10000, 10⟩ }

/-- A game without a length ends as it begins, and its players have played for almost `2 ^ 64`
milliseconds. -/
theorem played_wraps :
    let ctx := run (Ctx.init 1 emptyProfile) tinyGame
    (ctx.players 0).occupied = true ∧ (ctx.players 0).playedMs.toNat = 2 ^ 64 - 3001 ∧
      ¬ (ctx.players 0).playedMs.toNat ≤ ∑ k, (ctx.room.profile.phases k).durationMs.toNat := by
  refine ⟨rfl, rfl, ?_⟩
  decide

end ToosType
