import LibCore.GameRoom
import LibCore.Timers

/-!
# The Pixel Game Room: Its Timer

A room on its event loop. `GameRoom` says only that the loop answered; here the same functions of
`game_room.c` run against the loop of `Timers`, together with whatever other owners do to their
own timers on that loop. `room_exec` says that the room of `GameRoom` is what one sees of this
when the loop is forgotten.

`GameRoom_start` creates the timer of a game and hands it to `addTimer`; it does not call
`Timer_start`, and nobody else has a pointer to that timer. `HttpServer_begin_shutdown` and
`Scheduler` start the timers they add.

## Main definitions

* `Site`: a room, its loop and its timer.
* `SiteOp`, `SiteOp.exec`, `siteRun`: calls and runs.
* `Site.Armed`: the timer of a game is registered and runs.

## Main results

* `game_timer_never_armed`: no game that is running has an armed timer.
-/

namespace PixelWar

open EventLoop

/-- What the allocator, the kernel and the backend of the loop answer during a call. -/
structure Answers where
  boardAllocated : Bool
  timerCreated : Bool
  backendAdds : Bool
  settimeOk : Bool
  backendRemoves : Bool

/-- A room and its loop. `gameTimer` is the timer `room->game_timer` points to when there is one,
`nextTimer` the next address, and `others` are the timers of other owners. -/
structure Site where
  room : Room
  loop : Loop
  gameTimer : ℕ
  nextTimer : ℕ
  others : List ℕ

namespace Site

/-- `GameRoom_detach_timer`. -/
def detachTimer (s : Site) (ans : Answers) : Bool × Site :=
  if !s.room.gameTimer then (true, s)
  else
    let (removed, loop) := s.loop.removeTimer s.gameTimer ans.settimeOk ans.backendRemoves
    if !removed then (false, { s with loop := loop })
    else
      (true, { s with
        room := { s.room with gameTimer := false }
        loop := loop.modify s.gameTimer Timer.release })

/-- `GameRoom_close`. No callback is registered for the end of a game. -/
def close (s : Site) (ans : Answers) : Bool × Site := s.detachTimer ans

/-- The answers as the room sees them. -/
def env (s : Site) (ans : Answers) : Env where
  boardAllocated := ans.boardAllocated
  timerAllocated := ans.timerCreated
  timerAdded := decide (s.loop.activeTimers.length < 1024) && ans.backendAdds
  timerRemoved := (s.loop.removeTimer s.gameTimer ans.settimeOk ans.backendRemoves).1

/-- `_GameRoom_force_reset`. -/
def forceReset (s : Site) (ans : Answers) (w h brush : UInt16) (durationMs : UInt64) :
    Bool × Site :=
  if w = 0 ∨ h = 0 then (false, s)
  else
    match Room.resetBoard s.room.board (s.env ans) w h with
    | none => (false, s)
    | some board =>
        let (detached, s) := s.detachTimer ans
        if !detached then (false, s)
        else (true, { s with room := s.room.renew board brush durationMs })

/-- `GameRoom_remove_player`. -/
def removePlayer (s : Site) (ans : Answers) (playerIdx : UInt8) : RemoveResult × Site :=
  match slotOf playerIdx with
  | none => (.error, s)
  | some i =>
      if s.room.playerSessions i = 0 then (.error, s)
      else
        let s := { s with room := s.room.vacate i }
        if slots.all fun i => decide (s.room.playerSessions i = 0) then
          if s.room.state ≠ .waiting then
            let (reset, s) := s.forceReset ans s.room.board.width s.room.board.height
              s.room.configuredBrushSize s.room.configuredDurationMs
            if !reset then (.autoResetFailed, s)
            else (.ok, { s with room := { s.room with initializerSession := 0 } })
          else (.ok, { s with room := { s.room with initializerSession := 0 } })
        else (.ok, s)

/-- `GameRoom_reset`. -/
def reset (s : Site) (ans : Answers) (requesterSession : UInt64) (w h brush : UInt16)
    (durationMs : UInt64) : Bool × Site :=
  if w = 0 ∨ h = 0 ∨ brush = 0 ∨ durationMs = 0 then (false, s)
  else if s.room.state = .running then (false, s)
  else if requesterSession = 0 ∨ requesterSession ≠ s.room.initializerSession then (false, s)
  else s.forceReset ans w h brush durationMs

/-- A new timer on the heap. -/
def allocate (s : Site) (t : Timer) : Site :=
  { s with
    loop := s.loop.modify s.nextTimer fun _ => t
    nextTimer := s.nextTimer + 1 }

/-- `GameRoom_start`. -/
def start (s : Site) (ans : Answers) (nowMs : UInt64) : Bool × Site :=
  let brush := s.room.configuredBrushSize
  let durMs := s.room.configuredDurationMs
  if !s.room.canStart then (false, s)
  else if s.room.gameTimer then (false, s)
  else if brush = 0 ∨ brush > maxBrushSize ∨ durMs = 0 then (false, s)
  else if durMs > longMax then (false, s)
  else if durMs > uint64Max - nowMs then (false, s)
  else
    match Timer.new ans.timerCreated durMs.toNat false with
    | none => (false, s)
    | some timer =>
        let t := s.nextTimer
        let s := s.allocate timer
        let (added, loop) := s.loop.addTimer t ans.backendAdds
        if !added then (false, { s with loop := loop.modify t Timer.release })
        else
          (true, { s with
            room := { s.room with
              gameTimer := true
              cooldownUntil := fun _ => 0
              brushSize := brush
              durationMs := durMs
              endsAtMs := nowMs + durMs
              state := .running }
            loop := loop
            gameTimer := t })

end Site

/-! ### Runs -/

/-- What the owner of a timer does with it. -/
inductive TimerOp
  | add (backendOk : Bool)
  | remove (settimeOk backendOk : Bool)
  | start (settimeOk : Bool)
  | stop (settimeOk : Bool)
  | reset (stopOk startOk : Bool)
  | release

/-- The loop after a call for timer `i`. -/
def TimerOp.exec (l : Loop) (i : ℕ) : TimerOp → Loop
  | .add backendOk => (l.addTimer i backendOk).2
  | .remove settimeOk backendOk => (l.removeTimer i settimeOk backendOk).2
  | .start settimeOk => l.modify i fun t => (t.start settimeOk).2
  | .stop settimeOk => l.modify i (·.stop settimeOk)
  | .reset stopOk startOk => l.modify i (·.reset stopOk startOk)
  | .release => l.modify i Timer.release

/-- A call for the room, an event of a timer, or a call of another owner for a timer of its own. -/
inductive SiteOp
  | assignPlayer (userId : UInt64) (reqTeam : Team)
  | removePlayer (ans : Answers) (playerIdx : UInt8)
  | reset (ans : Answers) (requesterSession : UInt64) (w h brush : UInt16) (durationMs : UInt64)
  | start (ans : Answers) (nowMs : UInt64)
  | paint (playerIdx : UInt8) (reqGeneration : UInt64) (x y : UInt16) (nowMs : UInt64)
  | checkGameOver (nowMs : UInt64)
  | close (ans : Answers)
  | timerEvent (i : ℕ)
  | newTimer (created : Bool) (intervalMs : ℤ) (repeating : Bool)
  | other (i : ℕ) (op : TimerOp)

/-- The site after a call. The timers that are not of other owners were made by
`GameRoom_start`, with `on_room_timer_expired` as their callback. -/
def SiteOp.exec (s : Site) : SiteOp → Site
  | .assignPlayer userId reqTeam => { s with room := (s.room.assignPlayer userId reqTeam).2 }
  | .removePlayer ans playerIdx => (s.removePlayer ans playerIdx).2
  | .reset ans requester w h brush durationMs => (s.reset ans requester w h brush durationMs).2
  | .start ans nowMs => (s.start ans nowMs).2
  | .paint playerIdx gen x y nowMs => { s with room := (s.room.paint playerIdx gen x y nowMs).2 }
  | .checkGameOver nowMs => { s with room := s.room.checkGameOver nowMs }
  | .close ans => (s.close ans).2
  | .timerEvent i =>
      if (s.loop.timers i).CanFire then
        { s with
          room := if i ∈ s.others then s.room else s.room.triggerTimeOver
          loop := s.loop.modify i Timer.onTimerEvent }
      else s
  | .newTimer created intervalMs repeating =>
      match Timer.new created intervalMs repeating with
      | none => s
      | some timer => { s.allocate timer with others := s.nextTimer :: s.others }
  | .other i op => if i ∈ s.others then { s with loop := op.exec s.loop i } else s

/-- A run of calls. -/
def siteRun (s : Site) (ops : List SiteOp) : Site := ops.foldl SiteOp.exec s

/-- Memory that holds no timer. -/
def noTimer : Timer where
  tfdOpen := false
  intervalMs := 0
  repeating := false
  active := false
  platformData := false
  refs := 0
  itValue := (0, 0)
  itInterval := (0, 0)

/-- A new room on a new loop. -/
def Site.new (room : Room) : Site where
  room := room
  loop := { timers := fun _ => noTimer, activeTimers := [] }
  gameTimer := 0
  nextTimer := 0
  others := []

/-- The timer of the game is registered with the loop, and its descriptor is armed with the
duration of the game. -/
def Site.Armed (s : Site) : Prop :=
  s.room.gameTimer = true ∧ s.gameTimer ∈ s.loop.activeTimers ∧
    (s.loop.timers s.gameTimer).active = true ∧
    (s.loop.timers s.gameTimer).itValue = timespec s.room.durationMs.toNat

/-! ### The room of a site -/

namespace Site

theorem detachTimer_room (s : Site) (ans : Answers) :
    (s.detachTimer ans).1 = (s.room.detachTimer (s.env ans)).isSome ∧
      (s.detachTimer ans).2.room = (s.room.detachTimer (s.env ans)).getD s.room := by
  rw [detachTimer, Room.detachTimer]
  by_cases htimer : s.room.gameTimer = true
  · cases hremoved : (s.loop.removeTimer s.gameTimer ans.settimeOk ans.backendRemoves).1 <;>
      simp [htimer, hremoved, env]
  · simp [htimer]

theorem forceReset_room (s : Site) (ans : Answers) (w h brush : UInt16) (durationMs : UInt64) :
    (s.forceReset ans w h brush durationMs).1 =
        (s.room.forceReset (s.env ans) w h brush durationMs).isSome ∧
      (s.forceReset ans w h brush durationMs).2.room =
        (s.room.forceReset (s.env ans) w h brush durationMs).getD s.room := by
  obtain ⟨hdetached, hroom⟩ := s.detachTimer_room ans
  rw [forceReset, Room.forceReset]
  split_ifs with hsize
  · exact ⟨rfl, rfl⟩
  cases Room.resetBoard s.room.board (s.env ans) w h with
  | none => exact ⟨rfl, rfl⟩
  | some board =>
      cases hdetach : s.room.detachTimer (s.env ans) with
      | none => simp_all
      | some room =>
          have hfalse : room.gameTimer = false := by
            rw [Room.detachTimer] at hdetach
            split_ifs at hdetach with htimer
            · rw [← Option.some.inj hdetach]
              simpa using htimer
            · rw [← Option.some.inj hdetach]
          simp_all [Room.renew]

theorem removePlayer_room (s : Site) (ans : Answers) (playerIdx : UInt8) :
    (s.removePlayer ans playerIdx).2.room = (s.room.removePlayer (s.env ans) playerIdx).2 := by
  rw [removePlayer, Room.removePlayer]
  cases slotOf playerIdx with
  | none => rfl
  | some i =>
      simp only
      by_cases hsession : s.room.playerSessions i = 0
      · rw [if_pos hsession, if_pos hsession]
      rw [if_neg hsession, if_neg hsession]
      by_cases hempty : (slots.all fun j => decide ((s.room.vacate i).playerSessions j = 0)) = true
      · rw [if_pos hempty, if_pos hempty]
        by_cases hstate : (s.room.vacate i).state ≠ .waiting
        · rw [if_pos hstate, if_pos hstate]
          obtain ⟨hreset, hroom⟩ := forceReset_room { s with room := s.room.vacate i } ans
            (s.room.vacate i).board.width (s.room.vacate i).board.height
            (s.room.vacate i).configuredBrushSize (s.room.vacate i).configuredDurationMs
          rw [show env { s with room := s.room.vacate i } ans = s.env ans from rfl] at hreset hroom
          rw [hreset]
          cases hforce : (s.room.vacate i).forceReset (s.env ans) (s.room.vacate i).board.width
            (s.room.vacate i).board.height (s.room.vacate i).configuredBrushSize
            (s.room.vacate i).configuredDurationMs with
          | none =>
              rw [hforce] at hroom
              exact hroom
          | some room =>
              rw [hforce] at hroom
              exact congrArg (fun room => { room with initializerSession := 0 }) hroom
        · rw [if_neg hstate, if_neg hstate]
      · rw [if_neg hempty, if_neg hempty]

theorem reset_room (s : Site) (ans : Answers) (requester : UInt64) (w h brush : UInt16)
    (durationMs : UInt64) :
    (s.reset ans requester w h brush durationMs).2.room =
      (s.room.reset (s.env ans) requester w h brush durationMs).getD s.room := by
  rw [reset, Room.reset]
  split_ifs
  · rfl
  · rfl
  · rfl
  · exact (s.forceReset_room ans w h brush durationMs).2

@[simp] theorem allocate_room (s : Site) (t : Timer) : (s.allocate t).room = s.room := rfl

theorem allocate_addTimer (s : Site) {t : Timer} (ht : t.platformData = false) (ans : Answers) :
    ((s.allocate t).loop.addTimer s.nextTimer ans.backendAdds).1 = (s.env ans).timerAdded := by
  rw [Loop.addTimer_fst (by simp [allocate, ht])]
  rfl

theorem start_room (s : Site) (ans : Answers) (nowMs : UInt64) :
    (s.start ans nowMs).2.room = (s.room.start (s.env ans) nowMs).getD s.room := by
  rw [start, Room.start]
  by_cases hcan : (!s.room.canStart) = true
  · simp [hcan]
  by_cases htimer : s.room.gameTimer = true
  · simp [hcan, htimer]
  by_cases hbrush : s.room.configuredBrushSize = 0 ∨ s.room.configuredBrushSize > maxBrushSize ∨
      s.room.configuredDurationMs = 0
  · simp [hcan, htimer, hbrush]
  by_cases hlong : s.room.configuredDurationMs > longMax
  · simp [hcan, htimer, hbrush, hlong]
  by_cases hmax : s.room.configuredDurationMs > uint64Max - nowMs
  · simp [hcan, htimer, hbrush, hlong, hmax]
  rw [if_neg hcan, if_neg htimer, if_neg hbrush, if_neg hlong, if_neg hmax, if_neg hcan,
    if_neg htimer, if_neg hbrush, if_neg hlong, if_neg hmax]
  have hne : s.room.configuredDurationMs.toNat ≠ 0 := fun h =>
    hbrush (.inr (.inr (UInt64.toNat_inj.mp h)))
  cases hnew : Timer.new ans.timerCreated s.room.configuredDurationMs.toNat false with
  | none =>
      have hcreated : (s.env ans).timerAllocated = false := by
        simpa [Timer.new, env, hne] using hnew
      simp [hcreated]
  | some timer =>
      obtain ⟨hcreated, hplatform, -⟩ := Timer.new_eq_some hnew
      have halloc : (s.env ans).timerAllocated = true := hcreated
      simp only [allocate_room, s.allocate_addTimer hplatform ans, halloc]
      cases (s.env ans).timerAdded <;> rfl

end Site

/-- **The room of `GameRoom`** is what a site shows when its loop is forgotten: every call is a
call of `Op` with the answers of the loop, apart from `GameRoom_close` and what other owners do. -/
theorem room_exec (s : Site) (o : SiteOp) :
    (∃ op : Op, (o.exec s).room = op.exec s.room) ∨ (o.exec s).room = s.room ∨
      (o.exec s).room = { s.room with gameTimer := false } := by
  cases o with
  | assignPlayer userId reqTeam => exact .inl ⟨.assignPlayer userId reqTeam, rfl⟩
  | removePlayer ans playerIdx =>
      exact .inl ⟨.removePlayer (s.env ans) playerIdx, s.removePlayer_room ans playerIdx⟩
  | reset ans requester w h brush durationMs =>
      exact .inl ⟨.reset (s.env ans) requester w h brush durationMs, s.reset_room ans ..⟩
  | start ans nowMs => exact .inl ⟨.start (s.env ans) nowMs, s.start_room ans nowMs⟩
  | paint playerIdx gen x y nowMs => exact .inl ⟨.paint playerIdx gen x y nowMs, rfl⟩
  | checkGameOver nowMs => exact .inl ⟨.checkGameOver nowMs, rfl⟩
  | close ans =>
      right
      have hroom := (s.detachTimer_room ans).2
      rw [SiteOp.exec, Site.close, hroom, Room.detachTimer]
      split_ifs
      · exact .inl rfl
      · exact .inr rfl
      · exact .inl rfl
  | timerEvent i =>
      rw [SiteOp.exec]
      split_ifs
      · exact .inr (.inl rfl)
      · exact .inl ⟨.timerExpired, rfl⟩
      · exact .inr (.inl rfl)
  | newTimer created intervalMs repeating =>
      rw [SiteOp.exec]
      cases Timer.new created intervalMs repeating <;> exact .inr (.inl rfl)
  | other i op =>
      rw [SiteOp.exec]
      split_ifs <;> exact .inr (.inl rfl)

/-! ### No game arms its timer -/

theorem assignPlayer_gameTimer (room : Room) (userId : UInt64) (reqTeam : Team) :
    (room.assignPlayer userId reqTeam).2.gameTimer = room.gameTimer := by
  obtain ⟨-, heq⟩ | ⟨-, -, -, -, ⟨i, cooldown, -, heq⟩ | ⟨-, heq⟩⟩ :=
    room.assignPlayer_cases userId reqTeam
  · rw [heq]
  · rw [heq]
  · rw [heq]

theorem checkGameOver_gameTimer (room : Room) (nowMs : UInt64) :
    (room.checkGameOver nowMs).gameTimer = room.gameTimer := by
  obtain ⟨heq, -⟩ | ⟨-, -, heq⟩ := room.checkGameOver_cases nowMs
  · rw [heq]
  · rw [heq]

theorem paint_gameTimer (room : Room) (playerIdx : UInt8) (gen : UInt64) (x y : UInt16)
    (nowMs : UInt64) : (room.paint playerIdx gen x y nowMs).2.gameTimer = room.gameTimer := by
  obtain ⟨-, -, heq⟩ | ⟨-, -, -, heq⟩ | ⟨i, -, -, -, -, -, -, -, heq⟩ :=
    room.paint_cases playerIdx gen x y nowMs
  · rw [heq]
  · rw [heq]
  · rw [heq]

/-- The timers that `GameRoom_start` has made are not armed; the one of a game is registered. -/
structure Dormant (s : Site) : Prop where
  idle : ∀ i, i ∉ s.others → (s.loop.timers i).Idle
  fresh : ∀ i ∈ s.others, i < s.nextTimer
  registered : s.room.gameTimer = true →
    s.gameTimer ∈ s.loop.activeTimers ∧ s.gameTimer ∉ s.others ∧ s.gameTimer < s.nextTimer

theorem dormant_new {room : Room} (h : room.gameTimer = false) : Dormant (Site.new room) where
  idle i _ := ⟨rfl, rfl⟩
  fresh i hi := absurd hi List.not_mem_nil
  registered htimer := by simp [Site.new, h] at htimer

namespace Dormant

/-- The room may change as long as it gets no new timer. -/
theorem of_room {s : Site} (h : Dormant s) {room : Room}
    (htimer : room.gameTimer = true → s.room.gameTimer = true) :
    Dormant { s with room := room } where
  idle := h.idle
  fresh := h.fresh
  registered hroom := h.registered (htimer hroom)

theorem detachTimer {s : Site} (h : Dormant s) (ans : Answers) :
    Dormant (s.detachTimer ans).2 := by
  have hidle : ∀ i, i ∉ s.others →
      ((s.loop.removeTimer s.gameTimer ans.settimeOk ans.backendRemoves).2.timers i).Idle :=
    fun i hi => Loop.idle_removeTimer (h.idle i hi) s.gameTimer _ _
  rw [Site.detachTimer]
  dsimp only
  split_ifs with htimer hremoved
  · exact h
  · refine ⟨hidle, h.fresh, fun hroom => ?_⟩
    rw [Loop.removeTimer_eq_false (by simpa using hremoved)]
    exact h.registered hroom
  · refine ⟨fun i hi => ?_, h.fresh, by simp⟩
    exact Loop.modify_timers (fun t ht => ht.release) (hidle i hi)

theorem forceReset {s : Site} (h : Dormant s) (ans : Answers) (w h' brush : UInt16)
    (durationMs : UInt64) : Dormant (s.forceReset ans w h' brush durationMs).2 := by
  rw [Site.forceReset]
  split_ifs
  · exact h
  split
  · exact h
  · dsimp only
    split_ifs
    · exact h.detachTimer ans
    · exact (h.detachTimer ans).of_room (by simp [Room.renew])

theorem removePlayer {s : Site} (h : Dormant s) (ans : Answers) (playerIdx : UInt8) :
    Dormant (s.removePlayer ans playerIdx).2 := by
  rw [Site.removePlayer]
  split
  · exact h
  · rename_i i hslot
    have hvacate : Dormant { s with room := s.room.vacate i } := h.of_room id
    dsimp only
    split_ifs
    · exact h
    · exact hvacate.forceReset ans _ _ _ _
    · exact (hvacate.forceReset ans _ _ _ _).of_room id
    · exact hvacate.of_room id
    · exact hvacate

theorem reset {s : Site} (h : Dormant s) (ans : Answers) (requester : UInt64) (w h' brush : UInt16)
    (durationMs : UInt64) : Dormant (s.reset ans requester w h' brush durationMs).2 := by
  rw [Site.reset]
  split_ifs
  · exact h
  · exact h
  · exact h
  · exact h.forceReset ans w h' brush durationMs

theorem allocate {s : Site} (h : Dormant s) {t : Timer} (ht : t.Idle) : Dormant (s.allocate t) where
  idle i hi := Loop.modify_timers (P := Timer.Idle) (fun _ _ => ht) (h.idle i hi)
  fresh i hi := Nat.lt_succ_of_lt (h.fresh i hi)
  registered hroom := by
    obtain ⟨hmem, hother, hlt⟩ := h.registered hroom
    exact ⟨hmem, hother, Nat.lt_succ_of_lt hlt⟩

theorem start {s : Site} (h : Dormant s) (ans : Answers) (nowMs : UInt64) :
    Dormant (s.start ans nowMs).2 := by
  rw [Site.start]
  dsimp only
  split_ifs with hcan htimer
  · exact h
  · exact h
  · exact h
  · exact h
  · exact h
  split
  · exact h
  · rename_i timer hnew
    have hnext : s.nextTimer ∉ s.others := fun hmem => (h.fresh _ hmem).false
    have hidle : ∀ i, i ∉ s.others →
        (((s.allocate timer).loop.addTimer s.nextTimer ans.backendAdds).2.timers i).Idle :=
      fun i hi => Loop.idle_addTimer ((h.allocate (Timer.new_eq_some hnew).2.2).idle i hi) _ _
    have hfresh : ∀ i ∈ s.others, i < s.nextTimer + 1 := fun i hi =>
      Nat.lt_succ_of_lt (h.fresh i hi)
    split_ifs with hadded
    · refine ⟨fun i hi => ?_, hfresh, fun hroom => absurd hroom htimer⟩
      exact Loop.modify_timers (fun t ht => ht.release) (hidle i hi)
    · refine ⟨hidle, hfresh, fun _ => ⟨?_, hnext, Nat.lt_succ_self _⟩⟩
      have hmem := (Loop.addTimer_eq_true (by simpa using hadded)).1
      rw [hmem]
      simp

/-- What another owner does to its own timers. -/
theorem other {s : Site} (h : Dormant s) {i : ℕ} (hi : i ∈ s.others) (op : TimerOp) :
    Dormant { s with loop := op.exec s.loop i } := by
  have hmodify : ∀ f : Timer → Timer, Dormant { s with loop := s.loop.modify i f } := by
    refine fun f => ⟨fun j hj => ?_, h.fresh, h.registered⟩
    have hji : j ≠ i := fun hji => hj (hji ▸ hi)
    show ((s.loop.modify i f).timers j).Idle
    rw [Loop.modify_other _ hji]
    exact h.idle j hj
  cases op with
  | add backendOk =>
      refine ⟨fun j hj => Loop.idle_addTimer (h.idle j hj) i backendOk, h.fresh, fun hroom => ?_⟩
      obtain ⟨hmem, hrest⟩ := h.registered hroom
      exact ⟨Loop.mem_addTimer hmem i backendOk, hrest⟩
  | remove settimeOk backendOk =>
      refine ⟨fun j hj => Loop.idle_removeTimer (h.idle j hj) i settimeOk backendOk, h.fresh,
        fun hroom => ?_⟩
      obtain ⟨hmem, hother, hlt⟩ := h.registered hroom
      have hne : s.gameTimer ≠ i := fun hne => hother (hne ▸ hi)
      exact ⟨Loop.mem_removeTimer hne hmem settimeOk backendOk, hother, hlt⟩
  | start settimeOk => exact hmodify fun t => (t.start settimeOk).2
  | stop settimeOk => exact hmodify (·.stop settimeOk)
  | reset stopOk startOk => exact hmodify (·.reset stopOk startOk)
  | release => exact hmodify Timer.release

/-- The loop hands on no event of a timer of the room. -/
theorem timerEvent {s : Site} (h : Dormant s) (i : ℕ) :
    ((SiteOp.timerEvent i).exec s).room = s.room ∧ Dormant ((SiteOp.timerEvent i).exec s) := by
  rw [SiteOp.exec]
  split_ifs with hfire hother
  · refine ⟨rfl, fun j hj => ?_, h.fresh, h.registered⟩
    have hji : j ≠ i := fun hji => hj (hji ▸ hother)
    show ((s.loop.modify i Timer.onTimerEvent).timers j).Idle
    rw [Loop.modify_other _ hji]
    exact h.idle j hj
  · exact absurd hfire (h.idle i hother).not_canFire
  · exact ⟨rfl, h⟩

theorem newTimer {s : Site} (h : Dormant s) {t : Timer} (ht : t.Idle) :
    Dormant { s.allocate t with others := s.nextTimer :: s.others } where
  idle i hi := (h.allocate ht).idle i fun hmem => hi (List.mem_cons_of_mem _ hmem)
  fresh i hi := by
    obtain rfl | hi := List.mem_cons.mp hi
    · exact Nat.lt_succ_self _
    · exact Nat.lt_succ_of_lt (h.fresh i hi)
  registered hroom := by
    obtain ⟨hmem, hother, hlt⟩ := h.registered hroom
    refine ⟨hmem, fun hcons => ?_, Nat.lt_succ_of_lt hlt⟩
    obtain heq | hcons := List.mem_cons.mp hcons
    · exact hlt.ne heq
    · exact hother hcons

/-- **No call arms a timer of the room.** -/
theorem exec {s : Site} (h : Dormant s) (o : SiteOp) : Dormant (o.exec s) := by
  cases o with
  | assignPlayer userId reqTeam =>
      refine h.of_room fun htimer => ?_
      rwa [assignPlayer_gameTimer] at htimer
  | removePlayer ans playerIdx => exact h.removePlayer ans playerIdx
  | reset ans requester w h' brush durationMs => exact h.reset ans requester w h' brush durationMs
  | start ans nowMs => exact h.start ans nowMs
  | paint playerIdx gen x y nowMs =>
      refine h.of_room fun htimer => ?_
      rwa [paint_gameTimer] at htimer
  | checkGameOver nowMs =>
      refine h.of_room fun htimer => ?_
      rwa [checkGameOver_gameTimer] at htimer
  | close ans => exact h.detachTimer ans
  | timerEvent i => exact (h.timerEvent i).2
  | newTimer created intervalMs repeating =>
      rw [SiteOp.exec]
      split
      · exact h
      · rename_i timer hnew
        exact h.newTimer (Timer.new_eq_some hnew).2.2
  | other i op =>
      rw [SiteOp.exec]
      split_ifs with hi
      · exact h.other hi op
      · exact h

theorem run {s : Site} (h : Dormant s) (ops : List SiteOp) : Dormant (siteRun s ops) := by
  induction ops generalizing s with
  | nil => exact h
  | cons op ops ih => exact ih (h.exec op)

end Dormant

/-- **The timer of a game is never armed.** A game that is running has a timer that the loop has
registered, unless the room has been closed; but nobody has started it, so its descriptor is
disarmed and no event of a timer ends the game. -/
theorem game_timer_never_armed (roomId : UInt64) (w h : UInt16) (room : Room)
    (hnew : newGameRoom roomId w h = some room) (ops : List SiteOp) :
    let s := siteRun (Site.new room) ops
    s.room.state = .running →
      ¬ s.Armed ∧
        (s.room.gameTimer = true → s.gameTimer ∈ s.loop.activeTimers ∧
          (s.loop.timers s.gameTimer).active = false ∧
          (s.loop.timers s.gameTimer).itValue = (0, 0)) ∧
        ∀ i, ((SiteOp.timerEvent i).exec s).room = s.room := by
  intro s hrunning
  have htimer : room.gameTimer = false := by
    rw [newGameRoom, Option.map_eq_some_iff] at hnew
    obtain ⟨board, -, rfl⟩ := hnew
    rfl
  have hdormant : Dormant s := (dormant_new htimer).run ops
  refine ⟨fun harmed => ?_, fun hroom => ?_, fun i => (hdormant.timerEvent i).1⟩
  · obtain ⟨hroom, -, hactive, -⟩ := harmed
    have hidle := hdormant.idle s.gameTimer (hdormant.registered hroom).2.1
    exact absurd (hidle.1.symm.trans hactive) Bool.false_ne_true
  · obtain ⟨hmem, hother, -⟩ := hdormant.registered hroom
    exact ⟨hmem, hdormant.idle s.gameTimer hother⟩

/-- Nothing refuses. -/
def Answers.ok : Answers := ⟨true, true, true, true, true⟩

/-- A game of two players that runs for three minutes. -/
theorem game_timer_never_armed_sample :
    ∃ room, newGameRoom 1 8 8 = some room ∧
      let s := siteRun (Site.new room)
        [.assignPlayer 1 .red, .assignPlayer 2 .blue, .start .ok 7]
      s.room.state = .running ∧ s.room.durationMs = 180000 ∧ ¬ s.Armed := by
  obtain ⟨room, hnew⟩ : ∃ room, newGameRoom 1 8 8 = some room := ⟨_, rfl⟩
  have hstarted : (newGameRoom 1 8 8).all (fun room =>
      let s := siteRun (Site.new room)
        [.assignPlayer 1 .red, .assignPlayer 2 .blue, .start .ok 7]
      decide (s.room.state = .running ∧ s.room.durationMs = 180000)) = true := by
    decide +kernel
  rw [hnew, Option.all_some, decide_eq_true_eq] at hstarted
  refine ⟨room, hnew, hstarted.1, hstarted.2, ?_⟩
  exact (game_timer_never_armed 1 8 8 room hnew _ hstarted.1).1

/-- The game has started and its timer is registered, but it will not fire. -/
theorem game_timer_disarmed :
    ∃ room, newGameRoom 1 8 8 = some room ∧
      let s := siteRun (Site.new room)
        [.assignPlayer 1 .red, .assignPlayer 2 .blue, .start .ok 7]
      s.room.state = .running ∧ s.gameTimer ∈ s.loop.activeTimers ∧
        ¬ ((s.loop.timers s.gameTimer).active = true ∧
          (s.loop.timers s.gameTimer).itValue = timespec s.room.durationMs.toNat) := by
  refine ⟨_, rfl, ?_⟩
  decide +kernel

end PixelWar
