import LibCore.ToosWs

/-!
# ToosType: Events and Shutdowns

What emitting an event can do to a world, with all the shutdowns it causes. A player whose
connection has been shut down has none, and an event without a target goes to everybody: so what
matters is that private events have a target, and what becomes of the connections. `Tame` says
so; the adapter is tame however deep shutdowns nest, and they do not nest deeper than there are
players.

## Main definitions

* `Kept`: every private message went to the player it concerns.
* `Addressed`, `Deaf`: an event is for the player it concerns, or for nobody.
* `Shrinks`: connections only go away.

## Main results

* `tame_emitAt`: the adapter is tame.
* `emitAt_of_le`: more fuel than players makes no difference.
-/

open CString

namespace ToosType

/-- A payload for one player. -/
def Payload.Private : Payload → Prop
  | .sentenceDrop _ _ _ => True
  | .sentenceResult _ _ => True
  | .scoreUpdate _ _ _ _ _ _ _ _ => True
  | _ => False

instance : DecidablePred Payload.Private
  | .sentenceDrop _ _ _ | .sentenceResult _ _ | .scoreUpdate _ _ _ _ _ _ _ _ => .isTrue trivial
  | .joinAck _ _ | .roomConfig _ _ _ _ _ _ _ _ _ | .gameState _ _ _ | .countdown _
  | .phaseChanged _ _ _ | .gameOver _ | .finalRanking _ | .error _ => .isFalse id

/-- A player that is connected or has not finished has a connection. -/
def Plugged (players : Fin maxRoomPlayers → Player) : Prop :=
  ∀ i, (players i).occupied = true →
    (players i).connected = true ∨ (players i).finishStatus = .none → (players i).connPtr.isSome

/-- Every private message went to the connection of the player it concerns. -/
structure Kept (w : World) : Prop where
  plugged : Plugged w.ctx.players
  owned : ∀ d ∈ w.delivered, d.payload.Private → d.owner = some d.conn

/-- No player has a connection that is open. -/
def Deaf (w : World) : Prop :=
  ∀ j conn, (w.ctx.players j).occupied = true → (w.ctx.players j).connPtr = some conn →
    conn ∈ w.closing

/-- An event is sent to the player it concerns, or reaches nobody. -/
def Addressed (w : World) (about : Option (Fin maxRoomPlayers)) (target : Option Conn) : Prop :=
  (∃ i conn, about = some i ∧ target = some conn ∧ (w.ctx.players i).connPtr = some conn) ∨
    (∃ conn, target = some conn ∧ conn ∈ w.closing) ∨ target = none ∧ Deaf w

/-- Connections are shut down and players lose them, or their slots. -/
structure Shrinks (w w' : World) : Prop where
  closing : ∀ conn ∈ w.closing, conn ∈ w'.closing
  links : ∀ j conn, (w'.ctx.players j).connPtr = some conn → (w.ctx.players j).connPtr = some conn
  seats : ∀ j, (w'.ctx.players j).occupied = true → (w.ctx.players j).occupied = true

theorem Shrinks.refl (w : World) : Shrinks w w := ⟨fun _ h => h, fun _ _ h => h, fun _ h => h⟩

theorem Shrinks.trans {w w' w'' : World} (h : Shrinks w w') (h' : Shrinks w' w'') :
    Shrinks w w'' :=
  ⟨fun conn hc => h'.closing conn (h.closing conn hc),
    fun j conn hc => h.links j conn (h'.links j conn hc), fun j hj => h.seats j (h'.seats j hj)⟩

theorem Shrinks.deaf {w w' : World} (h : Shrinks w w') (hdeaf : Deaf w) : Deaf w' :=
  fun j conn hocc hconn => h.closing conn (hdeaf j conn (h.seats j hocc) (h.links j conn hconn))

theorem Shrinks.withCtx {w : World} {ctx : Ctx}
    (hlinks : ∀ j conn, (ctx.players j).connPtr = some conn →
      (w.ctx.players j).connPtr = some conn)
    (hseats : ∀ j, (ctx.players j).occupied = true → (w.ctx.players j).occupied = true) :
    Shrinks w (w.withCtx ctx) := ⟨fun _ h => h, hlinks, hseats⟩

/-- The player in slot `i` loses the connection, or the slot. -/
theorem Shrinks.update {w : World} {ctx : Ctx} {i : Fin maxRoomPlayers} {p : Player}
    (hplayers : ctx.players = Function.update w.ctx.players i p) (hptr : p.connPtr = none)
    (hocc : p.occupied = true → (w.ctx.players i).occupied = true) :
    Shrinks w (w.withCtx ctx) := by
  refine .withCtx (fun j c hc => ?_) fun j hj => ?_
  · rw [hplayers, Function.update_apply] at hc
    split_ifs at hc with hji
    · exact absurd (hptr.symm.trans hc) (by simp)
    · exact hc
  · rw [hplayers, Function.update_apply] at hj
    split_ifs at hj with hji
    · rw [hji]
      exact hocc hj
    · exact hj

/-- The player in slot `i` leaves. -/
theorem Shrinks.vacate {w : World} {ctx : Ctx} {i : Fin maxRoomPlayers}
    (hplayers : ctx.players = Function.update w.ctx.players i Player.zero) :
    Shrinks w (w.withCtx ctx) :=
  .update hplayers rfl fun hocc => absurd hocc (by simp [Player.zero])

/-- The game of the room has no next sentence for the player in slot `i`. -/
def NoneLeft (ctx : Ctx) (i : Fin maxRoomPlayers) (t : UInt64) : Prop :=
  ¬ (ctx.room.HasTime t ∧ (nextSentence ctx (ctx.players i).advanceCursor t).isSome)

/-- A running game without a next sentence for the player, or no game any more. -/
def Stalled (ctx : Ctx) (i : Fin maxRoomPlayers) (t : UInt64) : Prop :=
  ctx.room.state = .playing ∧ NoneLeft ctx i t ∨
    ctx.room.gameEndMs = 0 ∧ ∀ j, (ctx.players j).occupied = false

/-! ### Events -/

/-- What a function called from a send may do to a world. -/
structure Calm (onWsClose : World → Conn → UInt64 → World) : Prop where
  keeps : ∀ w conn t, Kept w → Kept (onWsClose w conn t)
  shrinks : ∀ w conn t, Shrinks w (onWsClose w conn t)
  stalls : ∀ w conn t i now, Stalled w.ctx i now → Stalled (onWsClose w conn t).ctx i now

/-- What emitting an event may do to a world. -/
structure Tame (wire : Wire) (emit : Emit) : Prop where
  keeps : ∀ w about target payload, Kept w → (payload.Private → Addressed w about target) →
    Kept (emit w about target payload)
  shrinks : ∀ w about target payload, Shrinks w (emit w about target payload)
  stalls : ∀ w about target payload i now, Stalled w.ctx i now →
    Stalled (emit w about target payload).ctx i now
  succeeds : ∀ w about conn payload, conn ∈ w.closing ∨ wire.fails w.sends = false →
    (emit w about (some conn) payload).ctx = emitEvent w.ctx (some conn) payload ∧
      (emit w about (some conn) payload).closing = w.closing ∧
      (emit w about (some conn) payload).sends =
        if conn ∈ w.closing then w.sends else w.sends + 1
  shuts : ∀ w about conn payload, wire.fails w.sends = true →
    conn ∈ (emit w about (some conn) payload).closing

theorem Kept.withCtx {w : World} {ctx : Ctx} (h : Kept w) (hp : Plugged ctx.players) :
    Kept (w.withCtx ctx) := ⟨hp, h.owned⟩

/-- A message is delivered to the player it concerns. -/
theorem Kept.deliver {w : World} (h : Kept w) {about : Option (Fin maxRoomPlayers)}
    {payload : Payload} {conn : Conn} (hpayload : payload.Private →
      ∃ i, about = some i ∧ (w.ctx.players i).connPtr = some conn) :
    Kept (w.deliver about payload conn) := by
  refine ⟨h.plugged, fun d hd hprivate => ?_⟩
  rw [World.deliver, List.mem_append, List.mem_singleton] at hd
  rcases hd with hd | rfl
  · exact h.owned d hd hprivate
  · obtain ⟨i, rfl, hconn⟩ := hpayload hprivate
    exact hconn

section Send

variable {wire : Wire} {onWsClose : World → Conn → UInt64 → World} (hcalm : Calm onWsClose)
  {about : Option (Fin maxRoomPlayers)} {payload : Payload} {w : World} {conn : Conn}

include hcalm

theorem kept_wsSend (h : Kept w) (hpayload : payload.Private → conn ∈ w.closing ∨
      ∃ i, about = some i ∧ (w.ctx.players i).connPtr = some conn) :
    Kept (wsSend wire onWsClose about payload w conn) := by
  rw [wsSend]
  split_ifs with hclosing hfails
  · exact h
  · have hdelivered := h.deliver fun hp => (hpayload hp).resolve_left hclosing
    exact hcalm.keeps _ _ _ ⟨hdelivered.plugged, hdelivered.owned⟩
  · exact h.deliver fun hp => (hpayload hp).resolve_left hclosing

theorem shrinks_wsSend : Shrinks w (wsSend wire onWsClose about payload w conn) := by
  rw [wsSend]
  split_ifs
  · exact .refl w
  · have hclosed : Shrinks w ((w.deliver about payload conn).close conn) :=
      ⟨fun _ hc => List.mem_cons_of_mem conn hc, fun _ _ h => h, fun _ h => h⟩
    exact hclosed.trans (hcalm.shrinks _ _ _)
  · exact ⟨fun _ h => h, fun _ _ h => h, fun _ h => h⟩

theorem stalls_wsSend {i : Fin maxRoomPlayers} {now : UInt64} (h : Stalled w.ctx i now) :
    Stalled (wsSend wire onWsClose about payload w conn).ctx i now := by
  rw [wsSend]
  split_ifs
  · exact h
  · exact hcalm.stalls _ _ _ i now h
  · exact h

end Send

/-- In a deaf world a broadcast reaches nobody. -/
theorem broadcast_of_deaf {wire : Wire} {onWsClose : World → Conn → UInt64 → World}
    {about : Option (Fin maxRoomPlayers)} {payload : Payload} {w : World} (h : Deaf w) :
    broadcastWsMessage (wsSend wire onWsClose about payload) w = w := by
  refine broadcast_invariant (P := fun w' => w' = w) ?_ rfl
  rintro w' i conn rfl hocc hconn
  rw [wsSend, if_pos (h i conn hocc hconn)]

section Emit

variable (wire : Wire) {onWsClose : World → Conn → UInt64 → World} (hcalm : Calm onWsClose)
  (w : World) (about : Option (Fin maxRoomPlayers)) (target : Option Conn) (payload : Payload)

include hcalm

theorem kept_emitWith (h : Kept w) (haddressed : payload.Private → Addressed w about target) :
    Kept (emitWith wire onWsClose w about target payload) := by
  have hrecorded : Kept (w.withCtx (emitEvent w.ctx target payload)) := ⟨h.plugged, h.owned⟩
  cases target with
  | some conn =>
      rw [emitWith_some]
      refine kept_wsSend hcalm hrecorded fun hp => ?_
      obtain ⟨i, conn', hi, hconn', hlink⟩ | ⟨conn', hconn', hclosing⟩ | ⟨hnone, -⟩ :=
        haddressed hp
      · obtain rfl := Option.some.inj hconn'
        exact .inr ⟨i, hi, hlink⟩
      · obtain rfl := Option.some.inj hconn'
        exact .inl hclosing
      · simp at hnone
  | none =>
      rw [emitWith_none]
      -- A private event without a target is one that nobody hears.
      by_cases hp : payload.Private
      · obtain ⟨i, conn, -, hsome, -⟩ | ⟨conn, hsome, -⟩ | ⟨-, hdeaf⟩ := haddressed hp
        · simp at hsome
        · simp at hsome
        · have hdeaf' : Deaf (w.withCtx (emitEvent w.ctx none payload)) := hdeaf
          rw [broadcast_of_deaf hdeaf']
          exact hrecorded
      · refine broadcast_invariant (P := Kept) (fun w' i conn h' _ _ => ?_) hrecorded
        exact kept_wsSend hcalm h' fun hp' => absurd hp' hp

theorem shrinks_emitWith : Shrinks w (emitWith wire onWsClose w about target payload) := by
  have hrecorded : Shrinks w (w.withCtx (emitEvent w.ctx target payload)) :=
    .withCtx (fun _ _ h => h) fun _ h => h
  cases target with
  | some conn =>
      rw [emitWith_some]
      exact hrecorded.trans (shrinks_wsSend hcalm)
  | none =>
      rw [emitWith_none]
      refine broadcast_invariant (P := Shrinks w) (fun w' i conn h' _ _ => ?_) hrecorded
      exact h'.trans (shrinks_wsSend hcalm)

theorem stalls_emitWith {i : Fin maxRoomPlayers} {now : UInt64} (h : Stalled w.ctx i now) :
    Stalled (emitWith wire onWsClose w about target payload).ctx i now := by
  have hrecorded : Stalled (w.withCtx (emitEvent w.ctx target payload)).ctx i now := h
  cases target with
  | some conn =>
      rw [emitWith_some]
      exact stalls_wsSend hcalm hrecorded
  | none =>
      rw [emitWith_none]
      refine broadcast_invariant (P := fun w' => Stalled w'.ctx i now) ?_ hrecorded
      exact fun w' j conn h' _ _ => stalls_wsSend hcalm h'

/-- **Events are as calm as the shutdowns they cause.** -/
theorem tame_emitWith : Tame wire (emitWith wire onWsClose) := by
  refine ⟨kept_emitWith wire hcalm, shrinks_emitWith wire hcalm,
    fun w about target payload i now => stalls_emitWith wire hcalm w about target payload,
    fun w about conn payload h => ?_, fun w about conn payload hfails => ?_⟩
  · rw [emitWith_some]
    have hrecorded : conn ∈ (w.withCtx (emitEvent w.ctx (some conn) payload)).closing ∨
        wire.fails (w.withCtx (emitEvent w.ctx (some conn) payload)).sends = false := h
    obtain ⟨heq, hclosing⟩ | ⟨heq, hclosing⟩ :=
      wsSend_of_succeeds onWsClose about payload hrecorded
    · rw [heq]
      exact ⟨rfl, rfl, (if_pos hclosing).symm⟩
    · rw [heq]
      exact ⟨rfl, rfl, (if_neg hclosing).symm⟩
  · rw [emitWith_some, wsSend]
    split_ifs with hclosing hfails'
    · exact hclosing
    · exact (hcalm.shrinks _ _ _).closing conn List.mem_cons_self
    · exact absurd hfails hfails'

end Emit

/-! ### Shutdowns -/

theorem Plugged.update {players : Fin maxRoomPlayers → Player} (h : Plugged players)
    (i : Fin maxRoomPlayers) {p : Player}
    (hp : p.occupied = true → p.connected = true ∨ p.finishStatus = .none → p.connPtr.isSome) :
    Plugged (Function.update players i p) := by
  intro j
  rw [Function.update_apply]
  split_ifs
  · exact hp
  · exact h j

/-- The player changes in other fields. -/
theorem Plugged.same {players : Fin maxRoomPlayers → Player} (h : Plugged players)
    (i : Fin maxRoomPlayers) {p : Player} (hocc : p.occupied = (players i).occupied)
    (hcon : p.connected = (players i).connected) (hptr : p.connPtr = (players i).connPtr)
    (hfinish : p.finishStatus = (players i).finishStatus) :
    Plugged (Function.update players i p) := by
  refine h.update i ?_
  rw [hocc, hcon, hptr, hfinish]
  exact h i

theorem plugged_zero : Plugged fun _ => Player.zero := fun i h => absurd h (by simp [Player.zero])

theorem finishStatus_droppedOut (p : Player) (room : Room) (t : UInt64) :
    (p.droppedOut room t).finishStatus ≠ .none := by
  rw [Player.droppedOut]
  by_cases h : p.finishStatus = .none
  · rw [if_pos h]
    simp [updatePlayerStats]
  · rw [if_neg h]
    exact h

theorem nextSentence_congr {ctx ctx' : Ctx} {p p' : Player} (hroom : ctx'.room = ctx.room)
    (hspawn : ctx'.spawn = ctx.spawn) (hcursor : p'.phaseCursor = p.phaseCursor) (t : UInt64) :
    nextSentence ctx' p' t = nextSentence ctx p t := by
  rw [nextSentence, nextSentence, hroom, hspawn, hcursor]

theorem phaseCursor_advanceCursor {p p' : Player} (hphase : p'.activePhase = p.activePhase)
    (hcursor : p'.phaseCursor = p.phaseCursor) :
    p'.advanceCursor.phaseCursor = p.advanceCursor.phaseCursor := by
  rw [Player.advanceCursor, Player.advanceCursor, hphase]
  split
  · exact hcursor
  · simp only [hcursor]

/-- The next sentence is a matter of the room, the deck and the cursors. -/
theorem NoneLeft.congr {ctx ctx' : Ctx} {i : Fin maxRoomPlayers} {t : UInt64}
    (h : NoneLeft ctx i t) (hroom : ctx'.room = ctx.room) (hspawn : ctx'.spawn = ctx.spawn)
    (hphase : (ctx'.players i).activePhase = (ctx.players i).activePhase)
    (hcursor : (ctx'.players i).phaseCursor = (ctx.players i).phaseCursor) : NoneLeft ctx' i t := by
  rw [NoneLeft, nextSentence_congr hroom hspawn (phaseCursor_advanceCursor hphase hcursor), hroom]
  exact h

theorem cursors_droppedOut (p : Player) (room : Room) (t : UInt64) :
    (p.droppedOut room t).activePhase = p.activePhase ∧
      (p.droppedOut room t).phaseCursor = p.phaseCursor := by
  rw [Player.droppedOut]
  by_cases h : p.finishStatus = .none
  · rw [if_pos h]
    exact ⟨rfl, rfl⟩
  · rw [if_neg h]
    exact ⟨rfl, rfl⟩

theorem Stalled.dropOut {ctx : Ctx} {i j : Fin maxRoomPlayers} {now t : UInt64}
    (hstate : ctx.room.state = .playing) (h : NoneLeft ctx i now) :
    Stalled (dropOut ctx j t) i now := by
  rw [dropOut_eq]
  refine .inl ⟨hstate, h.congr rfl rfl ?_ ?_⟩
  · by_cases hij : i = j
    · subst hij
      rw [players_setPlayer_self]
      exact (cursors_droppedOut _ _ _).1
    · rw [players_setPlayer_of_ne _ _ hij]
  · by_cases hij : i = j
    · subst hij
      rw [players_setPlayer_self]
      exact (cursors_droppedOut _ _ _).2
    · rw [players_setPlayer_of_ne _ _ hij]

section Disconnect

variable {wire : Wire} {emit : Emit} (h : Tame wire emit)

include h

theorem Tame.emitRoomConfig_kept {w : World} (hw : Kept w) : Kept (Live.emitRoomConfig emit w) :=
  h.keeps w _ _ _ hw fun hp => hp.elim

theorem Tame.emitError_kept {w : World} (hw : Kept w) (conn : Option Conn) (msg : String) :
    Kept (Live.emitError emit w conn msg) := h.keeps w _ _ _ hw fun hp => hp.elim

theorem kept_disconnect {w : World} (hw : Kept w) (conn : Conn) (nowMs : UInt64) :
    Kept (Live.disconnect emit w conn nowMs) := by
  have hempty : ∀ ctx t, Kept (w.withCtx (resetEmptyRoom ctx t)) :=
    fun ctx t => hw.withCtx plugged_zero
  have hleave : ∀ i, Plugged (leave w.ctx i).players :=
    fun i => hw.plugged.update i fun hocc => absurd hocc (by simp [Player.zero])
  rw [Live.disconnect]
  simp only
  generalize (if nowMs = 0 then w.ctx.lastTickMs else nowMs) = t
  split
  · exact hw
  · rename_i i hi
    split_ifs
    · exact hempty _ _
    · refine h.emitRoomConfig_kept (h.keeps _ _ _ _ ?_ fun hp => hp.elim)
      exact hw.withCtx (hleave i)
    · exact hempty _ _
    · exact h.emitRoomConfig_kept (hw.withCtx (hleave i))
    · refine hw.withCtx ?_
      rw [dropOut_eq]
      refine hw.plugged.update i fun _ hneeds => ?_
      obtain ⟨-, hcon, -⟩ := links_droppedOut (w.ctx.players i) w.ctx.room t
      rcases hneeds with hneeds | hneeds
      · exact absurd (hcon.symm.trans hneeds) (by simp)
      · exact absurd hneeds (finishStatus_droppedOut _ _ _)
    · exact hempty _ _

theorem shrinks_disconnect (w : World) (conn : Conn) (nowMs : UInt64) :
    Shrinks w (Live.disconnect emit w conn nowMs) := by
  have hempty : ∀ ctx t, Shrinks w (w.withCtx (resetEmptyRoom ctx t)) := by
    intro ctx t
    refine .withCtx (fun j c hc => ?_) fun j hj => ?_
    · exact absurd hc (by simp [resetEmptyRoom, resetSpawnEngine, Player.zero])
    · exact absurd hj (by simp [resetEmptyRoom, resetSpawnEngine, Player.zero])
  rw [Live.disconnect]
  simp only
  generalize (if nowMs = 0 then w.ctx.lastTickMs else nowMs) = t
  split
  · exact .refl w
  · rename_i i hi
    split_ifs
    · exact hempty _ _
    · have hleft : Shrinks w (w.withCtx (refreshConfigLock (resetSpawnEngine
          { leave w.ctx i with room := (leave w.ctx i).room.cancelCountdown t }))) :=
        .vacate rfl
      exact hleft.trans ((h.shrinks _ _ _ _).trans (h.shrinks _ _ _ _))
    · exact hempty _ _
    · have hleft : Shrinks w (w.withCtx (refreshConfigLock (leave w.ctx i))) := .vacate rfl
      exact hleft.trans (h.shrinks _ _ _ _)
    · obtain ⟨hptr, -, hocc⟩ := links_droppedOut (w.ctx.players i) w.ctx.room t
      rw [dropOut_eq]
      exact .update rfl hptr fun h => hocc ▸ h
    · exact hempty _ _

omit h in
theorem stalls_disconnect {w : World} {i : Fin maxRoomPlayers} {now : UInt64}
    (hw : Stalled w.ctx i now) (conn : Conn) (nowMs : UInt64) :
    Stalled (Live.disconnect emit w conn nowMs).ctx i now := by
  obtain ⟨hstate, hnone⟩ | ⟨hend, hfree⟩ := hw
  · rw [Live.disconnect]
    simp only
    generalize (if nowMs = 0 then w.ctx.lastTickMs else nowMs) = t
    split
    · exact .inl ⟨hstate, hnone⟩
    · rw [if_neg (by simp [hstate]), if_neg (by simp [hstate])]
      split_ifs
      · exact .dropOut hstate hnone
      · refine .inr ⟨?_, fun j => rfl⟩
        simp [World.withCtx, resetEmptyRoom, resetSpawnEngine, Room.setDurationMinutes]
  · have hfind : findPlayerByConn w.ctx conn = none := by
      rw [findPlayerByConn, List.find?_eq_none]
      simp [hfree]
    have hsame : Live.disconnect emit w conn nowMs = w := by
      rw [Live.disconnect]
      simp only [hfind]
    rw [hsame]
    exact .inr ⟨hend, hfree⟩

theorem calm_disconnect : Calm (Live.disconnect emit) :=
  ⟨fun _ conn t hw => kept_disconnect h hw conn t, shrinks_disconnect h,
    fun _ conn t _ _ hw => stalls_disconnect hw conn t⟩

end Disconnect

/-- **The adapter is tame**, however deep shutdowns nest. -/
theorem tame_emitAt (wire : Wire) (fuel : ℕ) : Tame wire (emitAt wire fuel) := by
  induction fuel with
  | zero => exact tame_emitWith wire ⟨fun _ _ _ h => h, fun w _ _ => .refl w, fun _ _ _ _ _ h => h⟩
  | succ fuel ih => exact tame_emitWith wire (calm_disconnect ih)

/-! ### How deep shutdowns nest -/

/-- The players with a connection that is open. -/
def openSlots (w : World) : Finset (Fin maxRoomPlayers) :=
  Finset.univ.filter fun j => (w.ctx.players j).occupied = true ∧
    (w.ctx.players j).connPtr.any (fun conn => decide (conn ∉ w.closing)) = true

theorem mem_openSlots {w : World} {j : Fin maxRoomPlayers} :
    j ∈ openSlots w ↔ (w.ctx.players j).occupied = true ∧
      ∃ conn, (w.ctx.players j).connPtr = some conn ∧ conn ∉ w.closing := by
  rw [openSlots, Finset.mem_filter]
  simp [Option.any_eq_true]

theorem Shrinks.openSlots_subset {w w' : World} (h : Shrinks w w') :
    openSlots w' ⊆ openSlots w := by
  intro j hj
  obtain ⟨hocc, conn, hconn, hopen⟩ := mem_openSlots.mp hj
  exact mem_openSlots.mpr ⟨h.seats j hocc, conn, h.links j conn hconn,
    fun hclosing => hopen (h.closing conn hclosing)⟩

theorem disconnect_of_none {emit : Emit} {w : World} {conn : Conn}
    (h : findPlayerByConn w.ctx conn = none) (t : UInt64) : Live.disconnect emit w conn t = w := by
  rw [Live.disconnect]
  simp only [h]

/-- A shutdown is the same with events that are the same in the worlds it can lead to. -/
theorem disconnect_congr {wire : Wire} {emit emit' : Emit} (h : Tame wire emit) {w : World}
    (heq : ∀ w', Shrinks w w' → emit w' = emit' w') (conn : Conn) (t : UInt64) :
    Live.disconnect emit w conn t = Live.disconnect emit' w conn t := by
  have hconfig : ∀ {w'}, Shrinks w w' →
      Live.emitRoomConfig emit w' = Live.emitRoomConfig emit' w' := by
    intro w' hw'
    rw [Live.emitRoomConfig, Live.emitRoomConfig, heq w' hw']
  rw [Live.disconnect, Live.disconnect]
  simp only
  generalize (if t = 0 then w.ctx.lastTickMs else t) = t
  cases findPlayerByConn w.ctx conn with
  | none => rfl
  | some i =>
      simp only
      split_ifs
      · rfl
      · have hleft : Shrinks w (w.withCtx (refreshConfigLock (resetSpawnEngine
            { leave w.ctx i with room := (leave w.ctx i).room.cancelCountdown t }))) :=
          .vacate rfl
        rw [hconfig (hleft.trans (h.shrinks _ _ _ _)), heq _ hleft]
      · rfl
      · exact hconfig (.vacate rfl)
      · rfl
      · rfl

/-- An event is the same with shutdowns that are the same in the worlds it can lead to. -/
theorem emitWith_congr {wire : Wire} {onWsClose onWsClose' : World → Conn → UInt64 → World}
    (hcalm : Calm onWsClose) {w : World}
    (heq : ∀ w' about payload conn t, Shrinks w w' → conn ∉ w'.closing →
      onWsClose ((w'.deliver about payload conn).close conn) conn t =
        onWsClose' ((w'.deliver about payload conn).close conn) conn t) :
    emitWith wire onWsClose w = emitWith wire onWsClose' w := by
  have hsend : ∀ w' about payload conn, Shrinks w w' →
      wsSend wire onWsClose about payload w' conn = wsSend wire onWsClose' about payload w' conn := by
    intro w' about payload conn hw'
    rw [wsSend, wsSend]
    split_ifs with hclosing hfails
    · rfl
    · exact heq w' about payload conn _ hw' hclosing
    · rfl
  have hloop : ∀ about payload (is : List (Fin maxRoomPlayers)) w', Shrinks w w' →
      is.foldl (broadcastTo (wsSend wire onWsClose about payload)) w' =
        is.foldl (broadcastTo (wsSend wire onWsClose' about payload)) w' := by
    intro about payload is
    induction is with
    | nil => exact fun _ _ => rfl
    | cons i is ih =>
        intro w' hw'
        have hfirst : broadcastTo (wsSend wire onWsClose about payload) w' i =
            broadcastTo (wsSend wire onWsClose' about payload) w' i ∧
            Shrinks w (broadcastTo (wsSend wire onWsClose about payload) w' i) := by
          rw [broadcastTo, broadcastTo]
          split_ifs
          · cases (w'.ctx.players i).connPtr with
            | none => exact ⟨rfl, hw'⟩
            | some conn => exact ⟨hsend w' about payload conn hw', hw'.trans (shrinks_wsSend hcalm)⟩
          · exact ⟨rfl, hw'⟩
        rw [List.foldl_cons, List.foldl_cons, ih _ hfirst.2, hfirst.1]
  funext about target payload
  have hrecorded : Shrinks w (w.withCtx (emitEvent w.ctx target payload)) :=
    .withCtx (fun _ _ h => h) fun _ h => h
  cases target with
  | some conn =>
      rw [emitWith_some, emitWith_some]
      exact hsend _ about payload conn hrecorded
  | none =>
      rw [emitWith_none, emitWith_none]
      exact hloop about payload slots _ hrecorded

/-- A player whose connection fails is one fewer with an open one. -/
theorem card_openSlots_close {w : World} (about : Option (Fin maxRoomPlayers)) (payload : Payload)
    {conn : Conn} {i : Fin maxRoomPlayers} (hopen : conn ∉ w.closing)
    (hi : findPlayerByConn w.ctx conn = some i) :
    (openSlots ((w.deliver about payload conn).close conn)).card < (openSlots w).card := by
  have hfound := List.find?_some hi
  simp only [Bool.and_eq_true, decide_eq_true_eq] at hfound
  have hshrinks : Shrinks w ((w.deliver about payload conn).close conn) :=
    ⟨fun _ hc => List.mem_cons_of_mem conn hc, fun _ _ h => h, fun _ h => h⟩
  refine Finset.card_lt_card ⟨hshrinks.openSlots_subset, fun hsubset => ?_⟩
  have hmem : i ∈ openSlots w := mem_openSlots.mpr ⟨hfound.1, conn, hfound.2, hopen⟩
  obtain ⟨-, conn', hconn', hopen'⟩ := mem_openSlots.mp (hsubset hmem)
  have hsame : (w.ctx.players i).connPtr = some conn' := hconn'
  obtain rfl := Option.some.inj (hfound.2.symm.trans hsame)
  exact hopen' List.mem_cons_self

/-- Every shutdown within a shutdown takes away one more open connection. -/
theorem emitAt_stable (wire : Wire) {fuel fuel' : ℕ} (hle : fuel ≤ fuel') {w : World}
    (hw : (openSlots w).card ≤ fuel) : emitAt wire fuel' w = emitAt wire fuel w := by
  induction fuel generalizing fuel' w with
  | zero =>
      cases fuel' with
      | zero => rfl
      | succ fuel' =>
          refine emitWith_congr (calm_disconnect (tame_emitAt wire fuel')) ?_
          intro w' about payload conn t hshrinks hopen
          refine disconnect_of_none ?_ t
          by_contra hfound
          obtain ⟨i, hi⟩ := Option.ne_none_iff_exists'.mp hfound
          have hlt := card_openSlots_close about payload hopen hi
          have hcard := Finset.card_le_card hshrinks.openSlots_subset
          omega
  | succ fuel ih =>
      cases fuel' with
      | zero => omega
      | succ fuel' =>
          refine emitWith_congr (calm_disconnect (tame_emitAt wire fuel')) ?_
          intro w' about payload conn t hshrinks hopen
          cases hfound : findPlayerByConn w'.ctx conn with
          | none =>
              have hfound' : findPlayerByConn ((w'.deliver about payload conn).close conn).ctx conn =
                none := hfound
              rw [disconnect_of_none hfound', disconnect_of_none hfound']
          | some i =>
              have hlt := card_openSlots_close about payload hopen hfound
              have hcard := Finset.card_le_card hshrinks.openSlots_subset
              refine disconnect_congr (tame_emitAt wire fuel') (fun w'' hw'' => ?_) conn t
              have hcard' := Finset.card_le_card hw''.openSlots_subset
              exact ih (by omega) (by omega)

/-- **Shutdowns nest no deeper than there are players**: more fuel makes no difference. -/
theorem emitAt_of_le (wire : Wire) {fuel : ℕ} (hle : maxRoomPlayers ≤ fuel) :
    emitAt wire fuel = emitAt wire maxRoomPlayers := by
  funext w
  refine emitAt_stable wire hle ?_
  exact (Finset.card_le_univ _).trans (by simp)

end ToosType
