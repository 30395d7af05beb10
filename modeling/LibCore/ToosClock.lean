import Mathlib.Algebra.BigOperators.Fin
import LibCore.ToosRoster

/-!
# ToosType: The Clock

An event loop calls the clock of a room whenever it gets to it. `clockAt` says where a game is
at a time, in natural numbers: it knows the start of the countdown and the profile, and nothing
of the calls. Every schedule of calls with times that do not go back ends where `clockAt` says.

`Reachable` collects what the program does to a room; a room of a running context is reachable,
and its times fit its state (`Timed`).

## Main results

* `clock_independent`: the clock does not depend on the schedule.
* `reachable_run`, `Reachable.timed`: rooms of runs and their times.
-/

open CString

namespace ToosType

/-! ### Durations -/

/-- The length of a game. -/
def Profile.total (profile : Profile) : ℕ := ∑ i, (profile.phases i).durationMs.toNat

/-- The phase after a time of a game. -/
def Profile.phaseOf (profile : Profile) (elapsed : ℕ) : ℕ :=
  if elapsed < (profile.phases 0).durationMs.toNat then 1
  else if elapsed < (profile.phases 0).durationMs.toNat + (profile.phases 1).durationMs.toNat then 2
  else 3

theorem Profile.total_eq (profile : Profile) :
    profile.total = (profile.phases 0).durationMs.toNat + (profile.phases 1).durationMs.toNat +
      (profile.phases 2).durationMs.toNat := Fin.sum_univ_three _

theorem Profile.total_lt (profile : Profile) : profile.total < 2 ^ 34 := by
  have h₀ := (profile.phases 0).durationMs.toNat_lt
  have h₁ := (profile.phases 1).durationMs.toNat_lt
  have h₂ := (profile.phases 2).durationMs.toNat_lt
  rw [Profile.total_eq]
  omega

theorem Profile.phaseOf_mono (profile : Profile) {a b : ℕ} (h : a ≤ b) :
    profile.phaseOf a ≤ profile.phaseOf b := by
  rw [Profile.phaseOf, Profile.phaseOf]
  split_ifs <;> omega

theorem Profile.one_le_phaseOf (profile : Profile) (elapsed : ℕ) : 1 ≤ profile.phaseOf elapsed := by
  rw [Profile.phaseOf]
  split_ifs <;> omega

theorem toNat_uint64Max_sub (n : UInt64) : (uint64Max - n).toNat = 2 ^ 64 - 1 - n.toNat := by
  have hlt := n.toNat_lt
  have hle : n ≤ uint64Max := UInt64.le_iff_toNat_le.mpr (show n.toNat ≤ 2 ^ 64 - 1 by omega)
  rw [UInt64.toNat_sub_of_le _ _ hle]
  rfl

namespace Room

theorem totalDurationLoop_toNat (total : UInt64) (phases : List PhaseProfile)
    (h : total.toNat + (phases.map fun p => p.durationMs.toNat).sum < 2 ^ 64) :
    (totalDurationLoop total phases).toNat =
      total.toNat + (phases.map fun p => p.durationMs.toNat).sum := by
  induction phases generalizing total with
  | nil => rfl
  | cons p phases ih =>
      rw [List.map_cons, List.sum_cons] at h
      have hp : p.durationMs.toUInt64.toNat = p.durationMs.toNat := UInt32.toNat_toUInt64 _
      have hsum : (total + p.durationMs.toUInt64).toNat = total.toNat + p.durationMs.toNat := by
        rw [UInt64.toNat_add, hp, Nat.mod_eq_of_lt (by omega)]
      rw [totalDurationLoop, if_neg, ih _ (by omega), hsum, List.map_cons, List.sum_cons]
      · omega
      · rw [UInt64.lt_iff_toNat_lt, toNat_uint64Max_sub, hp]
        omega

theorem totalDurationMs_toNat (self : Room) : self.totalDurationMs.toNat = self.profile.total := by
  have hsum : (((List.finRange maxPhases).map self.profile.phases).map
      fun p => p.durationMs.toNat).sum = self.profile.total := by
    rw [Profile.total, List.map_map, ← List.sum_ofFn, List.ofFn_eq_map]
    rfl
  have hlt := self.profile.total_lt
  rw [totalDurationMs, totalDurationLoop_toNat, hsum, UInt64.toNat_zero, Nat.zero_add]
  rw [hsum, UInt64.toNat_zero]
  omega

theorem makeDeadline_cases (nowMs durationMs : UInt64) :
    (makeDeadline nowMs durationMs = .none ∧ 2 ^ 64 ≤ nowMs.toNat + durationMs.toNat) ∨
      ∃ deadline, makeDeadline nowMs durationMs = some deadline ∧
        deadline.toNat = nowMs.toNat + durationMs.toNat := by
  have hlt := nowMs.toNat_lt
  rw [makeDeadline]
  split_ifs with h
  · rw [UInt64.lt_iff_toNat_lt, toNat_uint64Max_sub] at h
    exact .inl ⟨rfl, by omega⟩
  · rw [UInt64.lt_iff_toNat_lt, toNat_uint64Max_sub] at h
    refine .inr ⟨_, rfl, ?_⟩
    rw [UInt64.toNat_add, Nat.mod_eq_of_lt (by omega)]

/-- **The phase of a time.** -/
theorem phaseAt_toNat (self : Room) (nowMs : UInt64) :
    (self.phaseAt nowMs).toNat =
      if self.gameStartMs = 0 ∨ nowMs ≤ self.gameStartMs then 1
      else self.profile.phaseOf (nowMs.toNat - self.gameStartMs.toNat) := by
  rw [phaseAt]
  split_ifs with hstart
  · rfl
  · rw [not_or, UInt64.not_le] at hstart
    have hsub : (nowMs - self.gameStartMs).toNat = nowMs.toNat - self.gameStartMs.toNat :=
      UInt64.toNat_sub_of_le _ _ (UInt64.le_of_lt hstart.2)
    have h₀ := (self.profile.phases 0).durationMs.toNat_lt
    have h₁ := (self.profile.phases 1).durationMs.toNat_lt
    have hsum : ((self.profile.phases 0).durationMs.toUInt64 +
        (self.profile.phases 1).durationMs.toUInt64).toNat =
        (self.profile.phases 0).durationMs.toNat + (self.profile.phases 1).durationMs.toNat := by
      rw [UInt64.toNat_add, UInt32.toNat_toUInt64, UInt32.toNat_toUInt64]
      omega
    have hrange : (List.finRange maxPhases).map self.profile.phases =
        [self.profile.phases 0, self.profile.phases 1, self.profile.phases 2] := rfl
    simp only [hrange, phaseLoop, UInt64.zero_add, UInt64.lt_iff_toNat_lt, hsub, hsum,
      UInt32.toNat_toUInt64, Profile.phaseOf]
    split_ifs <;> rfl

end Room

/-! ### The game at a time -/

/-- Where a game is: its state and its times, and its phase unless the game is over. -/
structure Clock where
  state : GameState
  gameStart : ℕ
  gameEnd : ℕ
  phase : ℕ

/-- The phase at a time of a game that has started. -/
def Profile.phaseFrom (profile : Profile) (start t : ℕ) : ℕ :=
  if start = 0 ∨ t ≤ start then 1 else profile.phaseOf (t - start)

theorem Profile.phaseFrom_mono (profile : Profile) (start : ℕ) {a b : ℕ} (h : a ≤ b) :
    profile.phaseFrom start a ≤ profile.phaseFrom start b := by
  rw [Profile.phaseFrom, Profile.phaseFrom]
  split_ifs with ha hb hb
  · exact Nat.le_refl 1
  · exact profile.one_le_phaseOf _
  · omega
  · exact profile.phaseOf_mono (by omega)

/-- **The clock of a game** whose countdown started at `t₀`. A game without a length, or one that
would end after the last time there is, is over when the countdown is. -/
def clockAt (profile : Profile) (t₀ t : ℕ) : Clock :=
  let start := t₀ + profile.countdownMs.toNat
  if t < start then ⟨.countdown, 0, 0, 0⟩
  else if profile.total = 0 ∨ 2 ^ 64 ≤ start + profile.total then ⟨.result, start, 0, 0⟩
  else if t < start + profile.total then
    ⟨.playing, start, start + profile.total, profile.phaseFrom start t⟩
  else ⟨.result, start, start + profile.total, 0⟩

section Clock

variable {profile : Profile} {t₀ t : ℕ}

theorem clockAt_countdown (h : t < t₀ + profile.countdownMs.toNat) :
    clockAt profile t₀ t = ⟨.countdown, 0, 0, 0⟩ := if_pos h

theorem clockAt_degenerate (h : t₀ + profile.countdownMs.toNat ≤ t)
    (htotal : profile.total = 0 ∨ 2 ^ 64 ≤ t₀ + profile.countdownMs.toNat + profile.total) :
    clockAt profile t₀ t = ⟨.result, t₀ + profile.countdownMs.toNat, 0, 0⟩ := by
  rw [clockAt, if_neg (Nat.not_lt.mpr h), if_pos htotal]

theorem clockAt_playing (h : t₀ + profile.countdownMs.toNat ≤ t)
    (htotal : t₀ + profile.countdownMs.toNat + profile.total < 2 ^ 64)
    (hend : t < t₀ + profile.countdownMs.toNat + profile.total) :
    clockAt profile t₀ t = ⟨.playing, t₀ + profile.countdownMs.toNat,
      t₀ + profile.countdownMs.toNat + profile.total,
      profile.phaseFrom (t₀ + profile.countdownMs.toNat) t⟩ := by
  rw [clockAt, if_neg (Nat.not_lt.mpr h), if_neg (by omega), if_pos hend]

theorem clockAt_result (htotal : profile.total ≠ 0)
    (hover : t₀ + profile.countdownMs.toNat + profile.total < 2 ^ 64)
    (hend : t₀ + profile.countdownMs.toNat + profile.total ≤ t) :
    clockAt profile t₀ t = ⟨.result, t₀ + profile.countdownMs.toNat,
      t₀ + profile.countdownMs.toNat + profile.total, 0⟩ := by
  rw [clockAt, if_neg (by omega), if_neg (by omega), if_neg (Nat.not_lt.mpr hend)]

/-- The four stretches of a game. -/
theorem clockAt_cases (profile : Profile) (t₀ t : ℕ) :
    t < t₀ + profile.countdownMs.toNat ∨
      (t₀ + profile.countdownMs.toNat ≤ t ∧
        (profile.total = 0 ∨ 2 ^ 64 ≤ t₀ + profile.countdownMs.toNat + profile.total)) ∨
      (t₀ + profile.countdownMs.toNat ≤ t ∧
        t₀ + profile.countdownMs.toNat + profile.total < 2 ^ 64 ∧
        t < t₀ + profile.countdownMs.toNat + profile.total) ∨
      (profile.total ≠ 0 ∧ t₀ + profile.countdownMs.toNat + profile.total < 2 ^ 64 ∧
        t₀ + profile.countdownMs.toNat + profile.total ≤ t) := by
  omega

end Clock

namespace Room

/-- A room shows what the clock says. -/
structure Reads (room : Room) (c : Clock) : Prop where
  state : room.state = c.state
  gameStart : room.gameStartMs.toNat = c.gameStart
  gameEnd : room.gameEndMs.toNat = c.gameEnd
  phase : c.state ≠ .result → room.currentPhase.toNat = c.phase

/-- A countdown that started at `t₀`. -/
structure Counting (profile : Profile) (t₀ : ℕ) (room : Room) : Prop where
  settings : room.profile = profile
  state : room.state = .countdown
  ends : room.countdownEndsAtMs.toNat = t₀ + profile.countdownMs.toNat
  gameStart : room.gameStartMs = 0
  gameEnd : room.gameEndMs = 0
  phase : room.currentPhase = 0

/-- The room of a countdown that started at `t₀`, after a tick at `t`. -/
structure Ticked (profile : Profile) (t₀ t : ℕ) (room : Room) : Prop where
  settings : room.profile = profile
  ends : room.countdownEndsAtMs.toNat = t₀ + profile.countdownMs.toNat
  reads : room.Reads (clockAt profile t₀ t)

theorem Ticked.counting {profile : Profile} {t₀ t : ℕ} {room : Room}
    (h : Ticked profile t₀ t room) (hstate : room.state = .countdown) :
    Counting profile t₀ room := by
  have hreads := h.reads
  obtain hlt | ⟨hle, htotal⟩ | ⟨hle, htotal, hlt⟩ | ⟨hne, htotal, hle⟩ :=
    clockAt_cases profile t₀ t
  · rw [clockAt_countdown hlt] at hreads
    exact ⟨h.settings, hstate, h.ends, UInt64.toNat_inj.mp hreads.gameStart,
      UInt64.toNat_inj.mp hreads.gameEnd, UInt32.toNat_inj.mp (hreads.phase (by simp))⟩
  · rw [clockAt_degenerate hle htotal] at hreads
    exact absurd (hstate.symm.trans hreads.state) (by simp)
  · rw [clockAt_playing hle htotal hlt] at hreads
    exact absurd (hstate.symm.trans hreads.state) (by simp)
  · rw [clockAt_result hne htotal hle] at hreads
    exact absurd (hstate.symm.trans hreads.state) (by simp)

theorem phaseAt_of_start {room : Room} {start : UInt64} (h : room.gameStartMs = start) (t : UInt64) :
    (room.phaseAt t).toNat = room.profile.phaseFrom start.toNat t.toNat := by
  simp only [phaseAt_toNat, Profile.phaseFrom, h, ← UInt64.toNat_inj, UInt64.toNat_zero,
    UInt64.le_iff_toNat_le]

/-- **What the end of a countdown can do.** -/
theorem tickCountdown_cases (room : Room) (nowMs : UInt64) :
    ((room.profile.total = 0 ∨ 2 ^ 64 ≤ room.countdownEndsAtMs.toNat + room.profile.total) ∧
      (room.tickCountdown nowMs).2 = { room with
        state := .result, stateStartMs := nowMs, gameStartMs := room.countdownEndsAtMs }) ∨
    ∃ gameEnd : UInt64, room.profile.total ≠ 0 ∧
      gameEnd.toNat = room.countdownEndsAtMs.toNat + room.profile.total ∧
      ((gameEnd ≤ nowMs ∧ (room.tickCountdown nowMs).2 = { room with
          state := .result, stateStartMs := gameEnd, gameStartMs := room.countdownEndsAtMs,
          gameEndMs := gameEnd, currentPhase := 3 }) ∨
        ∃ phase : UInt32, nowMs < gameEnd ∧
          phase.toNat = room.profile.phaseFrom room.countdownEndsAtMs.toNat nowMs.toNat ∧
          (room.tickCountdown nowMs).2 = { room with
            state := .playing, stateStartMs := room.countdownEndsAtMs,
            gameStartMs := room.countdownEndsAtMs, gameEndMs := gameEnd, currentPhase := phase }) := by
  have htotal : ({ room with gameStartMs := room.countdownEndsAtMs } : Room).totalDurationMs.toNat =
      room.profile.total := by rw [totalDurationMs_toNat]
  rw [Room.tickCountdown]
  by_cases hzero :
      ({ room with gameStartMs := room.countdownEndsAtMs } : Room).totalDurationMs = 0
  · simp only [hzero, if_true]
    rw [← UInt64.toNat_inj, htotal] at hzero
    exact .inl ⟨.inl hzero, trivial⟩
  · simp only [hzero, if_false]
    rw [← UInt64.toNat_inj, htotal, UInt64.toNat_zero] at hzero
    obtain ⟨hdead, hover⟩ | ⟨gameEnd, hdead, hsum⟩ := makeDeadline_cases room.countdownEndsAtMs
      ({ room with gameStartMs := room.countdownEndsAtMs } : Room).totalDurationMs
    · rw [htotal] at hover
      simp only [hdead]
      exact .inl ⟨.inr hover, trivial⟩
    · rw [htotal] at hsum
      simp only [hdead]
      refine .inr ⟨gameEnd, hzero, hsum, ?_⟩
      split_ifs with hlate
      · exact .inl ⟨hlate, rfl⟩
      · exact .inr ⟨_, UInt64.not_le.mp hlate, phaseAt_of_start rfl _, rfl⟩

/-- The first tick after the countdown. -/
theorem Counting.tickCountdown {profile : Profile} {t₀ : ℕ} {room : Room}
    (h : Counting profile t₀ room) {t : UInt64} (ht : room.countdownEndsAtMs ≤ t) :
    Ticked profile t₀ t.toNat (room.tickCountdown t).2 := by
  have hend : t₀ + profile.countdownMs.toNat ≤ t.toNat := by
    rw [← h.ends]
    exact UInt64.le_iff_toNat_le.mp ht
  have hcases := room.tickCountdown_cases t
  rw [h.settings, h.ends] at hcases
  obtain ⟨htotal, heq⟩ | ⟨gameEnd, hzero, hsum, hmoved⟩ := hcases
  · rw [heq]
    refine ⟨rfl, h.ends, ?_⟩
    rw [clockAt_degenerate hend htotal]
    exact ⟨rfl, h.ends, by rw [h.gameEnd]; rfl, fun hne => absurd rfl hne⟩
  · have hlt := gameEnd.toNat_lt
    rw [hsum] at hlt
    obtain ⟨hlate, heq⟩ | ⟨phase, hearly, hphase, heq⟩ := hmoved
    · rw [UInt64.le_iff_toNat_le, hsum] at hlate
      rw [heq]
      refine ⟨rfl, h.ends, ?_⟩
      rw [clockAt_result hzero hlt hlate]
      exact ⟨rfl, h.ends, hsum, fun hne => absurd rfl hne⟩
    · rw [UInt64.lt_iff_toNat_lt, hsum] at hearly
      rw [heq]
      refine ⟨rfl, h.ends, ?_⟩
      rw [clockAt_playing hend hlt hearly]
      exact ⟨rfl, h.ends, hsum, fun _ => hphase⟩

theorem Counting.tick {profile : Profile} {t₀ : ℕ} {room : Room} (h : Counting profile t₀ room)
    (t : UInt64) : Ticked profile t₀ t.toNat (room.tick t).2 := by
  rw [Room.tick, h.state]
  simp only
  split_ifs with hend
  · exact h.tickCountdown hend
  · rw [ge_iff_le, UInt64.le_iff_toNat_le, h.ends, Nat.not_le] at hend
    refine ⟨h.settings, h.ends, ?_⟩
    rw [clockAt_countdown hend]
    exact ⟨h.state, by rw [h.gameStart]; rfl, by rw [h.gameEnd]; rfl, fun _ => by rw [h.phase]; rfl⟩

/-- **One tick more.** -/
theorem Ticked.tick {profile : Profile} {t₀ t : ℕ} {room : Room} (h : Ticked profile t₀ t room)
    {t' : UInt64} (ht : t ≤ t'.toNat) : Ticked profile t₀ t'.toNat (room.tick t').2 := by
  have hreads := h.reads
  obtain hlt | ⟨hle, htotal⟩ | ⟨hle, htotal, hlt⟩ | ⟨hne, htotal, hle⟩ :=
    clockAt_cases profile t₀ t
  · rw [clockAt_countdown hlt] at hreads
    exact (h.counting hreads.state).tick t'
  · rw [clockAt_degenerate hle htotal] at hreads
    rw [Room.tick, hreads.state]
    refine ⟨h.settings, h.ends, ?_⟩
    rw [clockAt_degenerate (hle.trans ht) htotal]
    exact hreads
  · rw [clockAt_playing hle htotal hlt] at hreads
    rw [Room.tick, hreads.state]
    simp only
    have hend : (t' ≥ room.gameEndMs) ↔
        t₀ + profile.countdownMs.toNat + profile.total ≤ t'.toNat := by
      rw [ge_iff_le, UInt64.le_iff_toNat_le, hreads.gameEnd]
    split_ifs with hlate hphase
    · refine ⟨h.settings, h.ends, ?_⟩
      rw [clockAt_result (by omega) htotal (hend.mp hlate)]
      exact ⟨rfl, hreads.gameStart, hreads.gameEnd, fun hne => absurd rfl hne⟩
    all_goals
      have hphaseAt : (room.phaseAt t').toNat =
          profile.phaseFrom (t₀ + profile.countdownMs.toNat) t'.toNat := by
        rw [phaseAt_of_start rfl, hreads.gameStart, h.settings]
      refine ⟨h.settings, h.ends, ?_⟩
      rw [clockAt_playing (hle.trans ht) htotal (Nat.not_le.mp fun hge => hlate (hend.mpr hge))]
    · exact ⟨rfl, hreads.gameStart, hreads.gameEnd, fun _ => hphaseAt⟩
    · rw [not_not] at hphase
      exact ⟨hreads.state, hreads.gameStart, hreads.gameEnd, fun _ => hphase ▸ hphaseAt⟩
  · rw [clockAt_result hne htotal hle] at hreads
    rw [Room.tick, hreads.state]
    refine ⟨h.settings, h.ends, ?_⟩
    rw [clockAt_result hne htotal (hle.trans ht)]
    exact hreads

/-- The phase of a countdown is zero, and the phases of a game are in order. -/
theorem Ticked.phase_le {profile : Profile} {t₀ t : ℕ} {room : Room} (h : Ticked profile t₀ t room)
    {t' : UInt64} (ht : t ≤ t'.toNat) : room.currentPhase ≤ (room.tick t').2.currentPhase := by
  have hreads := h.reads
  obtain hlt | ⟨hle, htotal⟩ | ⟨hle, htotal, hlt⟩ | ⟨hne, htotal, hle⟩ :=
    clockAt_cases profile t₀ t
  · rw [clockAt_countdown hlt] at hreads
    rw [(h.counting hreads.state).phase]
    exact UInt32.zero_le
  · rw [clockAt_degenerate hle htotal] at hreads
    rw [Room.tick, hreads.state]
    exact UInt32.le_refl _
  · rw [clockAt_playing hle htotal hlt] at hreads
    rw [Room.tick, hreads.state]
    simp only
    split_ifs
    · exact UInt32.le_refl _
    · rw [UInt32.le_iff_toNat_le, hreads.phase (by simp), phaseAt_of_start rfl, hreads.gameStart,
        h.settings]
      exact profile.phaseFrom_mono _ ht
    · exact UInt32.le_refl _
  · rw [clockAt_result hne htotal hle] at hreads
    rw [Room.tick, hreads.state]
    exact UInt32.le_refl _

/-- Ticks at the times of a list. -/
def tickAll (room : Room) (times : List UInt64) : Room :=
  times.foldl (fun room t => (room.tick t).2) room

theorem tickAll_append (room : Room) (times times' : List UInt64) :
    room.tickAll (times ++ times') = (room.tickAll times).tickAll times' := List.foldl_append

/-- **Every schedule ends where the clock says**, and no phase comes before an earlier one. -/
theorem Ticked.tickAll {profile : Profile} {t₀ t : ℕ} {room : Room} (h : Ticked profile t₀ t room)
    {times : List UInt64} {last : UInt64} (hsorted : (times ++ [last]).Pairwise (· ≤ ·))
    (ht : ∀ t' ∈ times ++ [last], t ≤ t'.toNat) :
    Ticked profile t₀ last.toNat (room.tickAll (times ++ [last])) ∧
      room.currentPhase ≤ (room.tickAll (times ++ [last])).currentPhase := by
  induction times generalizing room t with
  | nil => exact ⟨h.tick (ht last (by simp)), h.phase_le (ht last (by simp))⟩
  | cons t' times ih =>
      rw [List.cons_append, List.pairwise_cons] at hsorted
      have ht' := ht t' (by simp)
      obtain ⟨hlast, hphase⟩ := ih (h.tick ht') hsorted.2
        fun t'' hmem => UInt64.le_iff_toNat_le.mp (hsorted.1 t'' hmem)
      exact ⟨hlast, UInt32.le_trans (h.phase_le ht') hphase⟩

/-- The same from the start of the countdown on. -/
theorem Counting.tickAll {profile : Profile} {t₀ : ℕ} {room : Room} (h : Counting profile t₀ room)
    {times : List UInt64} {last : UInt64} (hsorted : (times ++ [last]).Pairwise (· ≤ ·)) :
    Ticked profile t₀ last.toNat (room.tickAll (times ++ [last])) := by
  cases times with
  | nil => exact h.tick last
  | cons t times =>
      rw [List.cons_append, List.pairwise_cons] at hsorted
      exact ((h.tick t).tickAll hsorted.2
        fun t' hmem => UInt64.le_iff_toNat_le.mp (hsorted.1 t' hmem)).1

theorem Counting.phase_le {profile : Profile} {t₀ : ℕ} {room : Room} (h : Counting profile t₀ room)
    (early late : List UInt64) (hsorted : (early ++ late).Pairwise (· ≤ ·)) :
    (room.tickAll early).currentPhase ≤ (room.tickAll (early ++ late)).currentPhase := by
  obtain ⟨hearly, hlate, hle⟩ := List.pairwise_append.mp hsorted
  rw [tickAll_append]
  rcases List.eq_nil_or_concat early with rfl | ⟨early, t, rfl⟩
  · show room.currentPhase ≤ _
    rw [h.phase]
    exact UInt32.zero_le
  rcases List.eq_nil_or_concat late with rfl | ⟨late, t', rfl⟩
  · exact UInt32.le_refl _
  · rw [List.concat_eq_append] at hearly hlate hle ⊢
    rw [List.concat_eq_append] at hle ⊢
    exact ((h.tickAll hearly).tickAll hlate
      fun t'' hmem => UInt64.le_iff_toNat_le.mp (hle t (by simp) t'' hmem)).2

/-! ### The rooms of the program -/

/-- The room `reset_empty_room` leaves, but for the durations. -/
def cleared (room : Room) (nowMs : UInt64) : Room :=
  { room with
    state := .waiting, language := .none, languageLocked := false, hostPlayerNo := 0,
    stateStartMs := nowMs, gameStartMs := 0, gameEndMs := 0, countdownEndsAtMs := 0,
    currentPhase := 0 }

/-- The rooms the program makes: those of `toos_type_room.c`, with the fields the game context
sets by itself. -/
inductive Reachable : Room → Prop
  | init (roomId : UInt64) (profile : Profile) : Reachable (Room.init roomId profile)
  | configure {room : Room} (language : Language) (locked : Bool) (host : UInt32) :
      Reachable room → Reachable { room with
        language := language, languageLocked := locked, hostPlayerNo := host }
  | setDuration {room room' : Room} {minutes : UInt32} : Reachable room →
      room.setDurationMinutes minutes = some room' → Reachable room'
  | startCountdown {room room' : Room} {nowMs : UInt64} : Reachable room →
      room.startCountdown nowMs = some room' → Reachable room'
  | cancelCountdown {room : Room} (nowMs : UInt64) : Reachable room →
      Reachable (room.cancelCountdown nowMs)
  | tick {room : Room} (nowMs : UInt64) : Reachable room → Reachable (room.tick nowMs).2
  | clear {room : Room} (nowMs : UInt64) : Reachable room → Reachable (room.cleared nowMs)

/-- The times of a room before a game and in one. -/
structure Timed (room : Room) : Prop where
  idle : room.state = .waiting ∨ room.state = .countdown →
    room.gameStartMs = 0 ∧ room.gameEndMs = 0 ∧ room.currentPhase = 0
  playing : room.state = .playing →
    room.gameEndMs.toNat = room.gameStartMs.toNat + room.profile.total

theorem setDurationMinutes_eq {room room' : Room} {minutes : UInt32}
    (h : room.setDurationMinutes minutes = some room') :
    room.state = .waiting ∧ ∃ phases, room' = { room with
      profile := { room.profile with phases := phases } } := by
  rw [setDurationMinutes] at h
  split_ifs at h with hstate
  exact ⟨not_not.mp hstate, _, (Option.some.inj h).symm⟩

theorem startCountdown_eq {room room' : Room} {nowMs : UInt64}
    (h : room.startCountdown nowMs = some room') :
    room.state = .waiting ∧ ∃ deadline : UInt64,
      deadline.toNat = nowMs.toNat + room.profile.countdownMs.toNat ∧
      room' = { room with state := .countdown, stateStartMs := nowMs,
                          countdownEndsAtMs := deadline } := by
  rw [startCountdown] at h
  split_ifs at h with hstate
  obtain ⟨hdead, -⟩ | ⟨deadline, hdead, hsum⟩ :=
    makeDeadline_cases nowMs room.profile.countdownMs.toUInt64
  · simp [hdead] at h
  · rw [hdead] at h
    rw [UInt32.toNat_toUInt64] at hsum
    exact ⟨not_not.mp hstate, deadline, hsum, (Option.some.inj h).symm⟩

/-- **What a tick can do.** -/
theorem tick_cases (room : Room) (t : UInt64) :
    (room.tick t).2 = room ∨
      (room.state = .countdown ∧ room.countdownEndsAtMs ≤ t ∧
        (room.tick t).2 = (room.tickCountdown t).2) ∨
      (room.state = .playing ∧ room.gameEndMs ≤ t ∧
        (room.tick t).2 = { room with state := .result, stateStartMs := room.gameEndMs }) ∨
      (room.state = .playing ∧ t < room.gameEndMs ∧
        (room.tick t).2 = { room with currentPhase := room.phaseAt t }) := by
  rw [Room.tick]
  split
  · rename_i hstate
    split_ifs with hend
    · exact .inr (.inl ⟨hstate, hend, rfl⟩)
    · exact .inl rfl
  · rename_i hstate
    split_ifs with hend
    · exact .inr (.inr (.inl ⟨hstate, hend, rfl⟩))
    · simp only
      split_ifs with hphase
      · exact .inr (.inr (.inr ⟨hstate, UInt64.not_le.mp hend, rfl⟩))
      · exact .inl rfl
  · exact .inl rfl

theorem settings_tick (room : Room) (t : UInt64) :
    (room.tick t).2.profile = room.profile ∧ (room.tick t).2.language = room.language := by
  obtain heq | ⟨-, -, heq⟩ | ⟨-, -, heq⟩ | ⟨-, -, heq⟩ := room.tick_cases t
  · rw [heq]
    exact ⟨rfl, rfl⟩
  · rw [heq]
    obtain ⟨-, heq⟩ | ⟨gameEnd, -, -, ⟨-, heq⟩ | ⟨phase, -, -, heq⟩⟩ := room.tickCountdown_cases t
    · rw [heq]
      exact ⟨rfl, rfl⟩
    · rw [heq]
      exact ⟨rfl, rfl⟩
    · rw [heq]
      exact ⟨rfl, rfl⟩
  · rw [heq]
    exact ⟨rfl, rfl⟩
  · rw [heq]
    exact ⟨rfl, rfl⟩

theorem Timed.tick {room : Room} (h : Timed room) (nowMs : UInt64) :
    Timed (room.tick nowMs).2 := by
  obtain heq | ⟨-, -, heq⟩ | ⟨-, -, heq⟩ | ⟨hstate, -, heq⟩ := room.tick_cases nowMs
  · rw [heq]
    exact h
  · rw [heq]
    obtain ⟨-, heq⟩ | ⟨gameEnd, -, hsum, ⟨-, heq⟩ | ⟨phase, -, -, heq⟩⟩ :=
      room.tickCountdown_cases nowMs
    · rw [heq]
      exact ⟨by simp, by simp⟩
    · rw [heq]
      exact ⟨by simp, by simp⟩
    · rw [heq]
      exact ⟨by simp, fun _ => hsum⟩
  · rw [heq]
    exact ⟨by simp, by simp⟩
  · rw [heq]
    exact ⟨by simp [hstate], fun _ => h.playing hstate⟩

/-- **The times of a room fit its state.** -/
theorem Reachable.timed {room : Room} (h : Reachable room) : Timed room := by
  induction h with
  | init roomId profile => exact ⟨fun _ => ⟨rfl, rfl, rfl⟩, fun h => absurd h (by simp [Room.init])⟩
  | configure language locked host _ ih => exact ⟨ih.idle, ih.playing⟩
  | setDuration _ heq ih =>
      obtain ⟨hstate, phases, rfl⟩ := setDurationMinutes_eq heq
      exact ⟨ih.idle, fun hplaying => absurd (hstate.symm.trans hplaying) (by simp)⟩
  | startCountdown _ heq ih =>
      obtain ⟨hstate, deadline, -, rfl⟩ := startCountdown_eq heq
      exact ⟨fun _ => ih.idle (.inl hstate), by simp⟩
  | cancelCountdown nowMs _ ih =>
      rw [Room.cancelCountdown]
      split_ifs
      · exact ih
      · exact ⟨fun _ => ⟨rfl, rfl, rfl⟩, by simp⟩
  | tick nowMs _ ih => exact ih.tick nowMs
  | clear nowMs _ ih => exact ⟨fun _ => ⟨rfl, rfl, rfl⟩, by simp [cleared]⟩

/-- **The clock does not depend on the schedule.** After a countdown that started at `t₀`, ticks
at any times that do not go back end where the clock is at the last of them; and the phase never
goes back. -/
theorem clock_independent (room room' : Room) (hreach : Reachable room) (t₀ : UInt64)
    (hstart : room.startCountdown t₀ = some room') (times : List UInt64) (last : UInt64)
    (hsorted : (times ++ [last]).Pairwise (· ≤ ·)) :
    let final := room'.tickAll (times ++ [last])
    let c := clockAt room.profile t₀.toNat last.toNat
    final.state = c.state ∧ final.gameStartMs.toNat = c.gameStart ∧
      final.gameEndMs.toNat = c.gameEnd ∧
      (final.state = .playing → final.currentPhase.toNat = c.phase) ∧
      ∀ early late, times ++ [last] = early ++ late →
        (room'.tickAll early).currentPhase ≤ (room'.tickAll (early ++ late)).currentPhase := by
  intro final c
  obtain ⟨hstate, deadline, hends, rfl⟩ := startCountdown_eq hstart
  obtain ⟨hgameStart, hgameEnd, hphase⟩ := hreach.timed.idle (.inl hstate)
  have hcounting : Counting room.profile t₀.toNat { room with
      state := .countdown, stateStartMs := t₀, countdownEndsAtMs := deadline } :=
    ⟨rfl, rfl, hends, hgameStart, hgameEnd, hphase⟩
  have hreads := (hcounting.tickAll hsorted).reads
  refine ⟨hreads.state, hreads.gameStart, hreads.gameEnd, fun hplaying => hreads.phase ?_,
    fun early late heq => hcounting.phase_le early late (heq ▸ hsorted)⟩
  rw [← hreads.state, hplaying]
  simp

/-- A tick at every second, and one after a stall. -/
theorem clock_independent_sample :
    let room := Room.init 1 sampleProfile
    let room' := (room.startCountdown 1).getD room
    (room'.tickAll [1001, 2001, 3001, 63001]).gameEndMs.toNat = 183001 ∧
      (room'.tickAll [63001]).gameEndMs.toNat = 183001 := by
  intro room room'
  have hclock : (clockAt room.profile 1 63001).gameEnd = 183001 := by decide
  have hsorted : ([1001, 2001, 3001] ++ [63001] : List UInt64).Pairwise (· ≤ ·) := by decide
  obtain ⟨-, -, hmany, -⟩ := clock_independent room room' (.init 1 sampleProfile) 1 rfl
    [1001, 2001, 3001] 63001 hsorted
  obtain ⟨-, -, hone, -⟩ := clock_independent room room' (.init 1 sampleProfile) 1 rfl [] 63001
    (by decide)
  exact ⟨hmany.trans hclock, hone.trans hclock⟩

end Room

end ToosType
