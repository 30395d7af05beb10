import LibCore.ToosTame

/-!
# ToosType: Private Messages

The sentences, results and scores of a player are for that player. The question is whether the
connection of a player is still there when the next event of the same call is emitted. A
submission or a deadline that retires a sentence tells the player the result and the score and
then deals the next sentence; if one of the first two shuts the connection down, what follows has
no target and goes to everybody else. Nothing else goes wrong.

## Main results

* `private_delivery`: every run in which those sends do not fail keeps messages private.
* `private_delivery_fails`: one in which one of them does.
-/

open CString

namespace ToosType

/-! ### Sends that matter -/

/-- Another player has a connection that is open. -/
def OthersOpen (w : World) (i : Fin maxRoomPlayers) : Prop :=
  ∃ j conn, j ≠ i ∧ (w.ctx.players j).occupied = true ∧ (w.ctx.players j).connPtr = some conn ∧
    conn ∉ w.closing

/-- The sends of a submission that retires a sentence do not fail, while somebody else is there
and a next sentence is due. -/
def SubmitTold (wire : Wire) (w : World) (i : Fin maxRoomPlayers) (conn : Conn) (t : UInt64) :
    Prop :=
  OthersOpen w i → ¬ NoneLeft w.ctx i t →
    conn ∈ w.closing ∨ wire.fails w.sends = false ∧ wire.fails (w.sends + 1) = false

/-- The sends at a deadline do not fail, while somebody else is there; the second one may if there
is no next sentence. -/
def DeadlineTold (wire : Wire) (w : World) (i : Fin maxRoomPlayers) (t : UInt64) : Prop :=
  OthersOpen w i → ∀ conn, (w.ctx.players i).connPtr = some conn →
    conn ∈ w.closing ∨ wire.fails w.sends = false ∧
      (wire.fails (w.sends + 1) = false ∨ w.ctx.room.state = .playing ∧ NoneLeft w.ctx i t)

/-- The deadline of the player in slot `i` has passed. -/
def Due (w : World) (i : Fin maxRoomPlayers) (t : UInt64) : Prop :=
  (w.ctx.players i).occupied = true ∧ (w.ctx.players i).connected = true ∧
    (w.ctx.players i).finishStatus = .none ∧ (w.ctx.players i).activeSentenceId ≠ 0 ∧
    (w.ctx.players i).sentenceDeadlineMs ≤ t

/-- The sends of all deadlines of a tick, slot by slot. -/
def DeadlinesTold (wire : Wire) (emit : Emit) (t : UInt64) :
    World → List (Fin maxRoomPlayers) → Prop
  | _, [] => True
  | w, i :: is =>
      (Due w i t → DeadlineTold wire w i t) ∧
        DeadlinesTold wire emit t (Live.expirePlayer emit t w i) is

/-- The sends a call must not lose: those that tell a player about a sentence that is done with. -/
def Told (wire : Wire) (emit : Emit) (w : World) : Op → Prop
  | .submit (some conn) sentenceId input nowMs => ∀ i k target jres,
      findPlayerByConn w.ctx conn = some i →
      Judged w.ctx i sentenceId input (w.ctx.clock nowMs) k target jres →
      jres = .correct ∨ jres = .expired → SubmitTold wire w i conn (w.ctx.clock nowMs)
  | .tick nowMs => (Live.tickRoom emit w (w.ctx.clock nowMs)).1 = true →
      (Live.tickRoom emit w (w.ctx.clock nowMs)).2.ctx.room.state = .playing →
      DeadlinesTold wire emit (w.ctx.clock nowMs)
        (Live.tickRoom emit w (w.ctx.clock nowMs)).2 slots
  | _ => True

/-! ### Sentences -/

/-- A player whose connection is shut down while nobody else has one leaves a deaf world. -/
theorem deaf_of_shut {w w' : World} {i : Fin maxRoomPlayers} {conn : Conn} (h : Shrinks w w')
    (hconn : (w.ctx.players i).connPtr = some conn) (hshut : conn ∈ w'.closing)
    (hothers : ¬ OthersOpen w i) : Deaf w' := by
  intro j conn' hocc hconn'
  have hocc₀ := h.seats j hocc
  have hconn₀ := h.links j conn' hconn'
  by_cases hji : j = i
  · subst hji
    obtain rfl := Option.some.inj (hconn.symm.trans hconn₀)
    exact hshut
  · refine h.closing conn' ?_
    by_contra hopen
    exact hothers ⟨j, conn', hji, hocc₀, hconn₀, hopen⟩

theorem addressed_self {w : World} {i : Fin maxRoomPlayers}
    (h : (w.ctx.players i).connPtr.isSome ∨ Deaf w) :
    Addressed w (some i) (w.ctx.players i).connPtr := by
  cases hconn : (w.ctx.players i).connPtr with
  | some conn => exact .inl ⟨i, conn, rfl, rfl, hconn⟩
  | none =>
      rw [hconn] at h
      exact .inr (.inr ⟨rfl, h.resolve_left (by simp)⟩)

/-- The links of a player. -/
structure SameLinks (p p' : Player) : Prop where
  occupied : p'.occupied = p.occupied
  connected : p'.connected = p.connected
  connPtr : p'.connPtr = p.connPtr
  finishStatus : p'.finishStatus = p.finishStatus

theorem Kept.setPlayer {w : World} (h : Kept w) (i : Fin maxRoomPlayers) {p : Player}
    (hp : SameLinks (w.ctx.players i) p) : Kept (w.setPlayer i p) :=
  h.withCtx (h.plugged.same i hp.occupied hp.connected hp.connPtr hp.finishStatus)

theorem sameLinks_advanceCursor (p : Player) : SameLinks p p.advanceCursor := by
  rw [Player.advanceCursor]
  split
  · exact ⟨rfl, rfl, rfl, rfl⟩
  · exact ⟨rfl, rfl, rfl, rfl⟩

theorem sameLinks_judged (p : Player) (room : Room) (k : Fin maxPhases) (input : Bytes)
    (jres : JudgeResult) (t : UInt64) : SameLinks p (p.judged room k input jres t) := by
  cases jres <;> exact ⟨rfl, rfl, rfl, rfl⟩

/-- A world with another player in slot `i` is as deaf, and its others as open. -/
theorem deaf_setPlayer {w : World} {i : Fin maxRoomPlayers} {p : Player}
    (hp : SameLinks (w.ctx.players i) p) (h : Deaf w) : Deaf (w.setPlayer i p) := by
  intro j conn hocc hconn
  by_cases hji : j = i
  · subst hji
    rw [World.setPlayer, World.withCtx, players_setPlayer_self] at hocc hconn
    exact h j conn (hp.occupied ▸ hocc) (hp.connPtr ▸ hconn)
  · rw [World.setPlayer, World.withCtx, players_setPlayer_of_ne _ _ hji] at hocc hconn
    exact h j conn hocc hconn

theorem othersOpen_setPlayer {w : World} {i : Fin maxRoomPlayers} {p : Player}
    (h : OthersOpen (w.setPlayer i p) i) : OthersOpen w i := by
  obtain ⟨j, conn, hji, hocc, hconn, hopen⟩ := h
  rw [World.setPlayer, World.withCtx, players_setPlayer_of_ne _ _ hji] at hocc hconn
  exact ⟨j, conn, hji, hocc, hconn, hopen⟩

theorem Stalled.noneLeft {ctx : Ctx} {i : Fin maxRoomPlayers} {t : UInt64} (h : Stalled ctx i t) :
    NoneLeft ctx i t := by
  obtain ⟨-, h⟩ | ⟨hend, -⟩ := h
  · exact h
  · rintro ⟨⟨hlt, -⟩, -⟩
    rw [hend] at hlt
    exact absurd hlt (UInt64.not_lt.mpr UInt64.zero_le)

theorem kept_foldl {f : World → Fin maxRoomPlayers → World} (hf : ∀ w i, Kept w → Kept (f w i))
    {w : World} (hw : Kept w) (is : List (Fin maxRoomPlayers)) : Kept (is.foldl f w) := by
  induction is generalizing w with
  | nil => exact hw
  | cons i is ih => exact ih (hf w i hw)

/-- A call that emits nothing private and takes no connection away. -/
def Settles (ctx ctx' : Ctx) : Prop :=
  (∃ evs, ctx'.sent = ctx.sent ++ evs ∧ ∀ ev ∈ evs, ¬ ev.payload.Private) ∧
    (Plugged ctx.players → Plugged ctx'.players)

theorem settles_nothing (ctx : Ctx) : Settles ctx ctx :=
  ⟨⟨[], (List.append_nil _).symm, by simp⟩, id⟩

theorem settles_event {ctx ctx' : Ctx} {target : Option Conn} {payload : Payload}
    (hpublic : ¬ payload.Private) (hsent : ctx'.sent = ctx.sent)
    (hplugged : Plugged ctx.players → Plugged ctx'.players) :
    Settles ctx (emitEvent ctx' target payload) := by
  refine ⟨⟨[⟨target, payload⟩], by rw [← hsent]; rfl, ?_⟩, hplugged⟩
  simpa using hpublic

theorem settles_setLanguage (ctx : Ctx) (conn : Conn) (lang : Language) :
    Settles ctx (setLanguage ctx conn lang).2 := by
  rw [setLanguage]
  split_ifs <;> exact settles_event id rfl id

theorem settles_setDuration (ctx : Ctx) (conn : Conn) (minutes : UInt32) :
    Settles ctx (setDuration ctx conn minutes).2 := by
  rw [setDuration]
  split_ifs
  · exact settles_event id rfl id
  · exact settles_event id rfl id
  · exact settles_event id rfl id
  · exact settles_event id rfl id
  · split <;> exact settles_event id rfl id

theorem settles_setReady (ctx : Ctx) (conn : Conn) : Settles ctx (setReady ctx conn).2 := by
  rw [setReady]
  split_ifs
  · exact settles_nothing ctx
  · exact settles_event id rfl id
  · split
    · exact settles_nothing ctx
    · rename_i i _
      refine settles_event id rfl fun hplugged => ?_
      exact hplugged.same i rfl rfl rfl rfl

theorem settles_prepareStart (ctx : Ctx) (db : Repository) (conn : Conn) :
    Settles ctx (prepareStart ctx db conn).2 := by
  rw [prepareStart]
  split_ifs
  · exact settles_event id rfl id
  · exact settles_event id rfl id
  · exact settles_event id rfl id
  · exact settles_event id rfl id
  · exact settles_event id rfl id
  · split
    · exact settles_event id rfl id
    · exact ⟨⟨[], (List.append_nil _).symm, by simp⟩, id⟩

theorem settles_abortStart (ctx : Ctx) : Settles ctx (abortStart ctx) := by
  rw [abortStart]
  split_ifs
  · exact ⟨⟨[], (List.append_nil _).symm, by simp⟩, id⟩
  · exact settles_nothing ctx

section Operations

variable {wire : Wire} {emit : Emit} (h : Tame wire emit)

include h

/-- The next sentence reaches the player, or nobody. -/
theorem kept_issueNextSentence {w : World} (hw : Kept w) {i : Fin maxRoomPlayers} {t : UInt64}
    (hnext : ((w.ctx.players i).connPtr.isSome ∨ Deaf w) ∨
      ¬ (w.ctx.room.HasTime t ∧ (nextSentence w.ctx (w.ctx.players i) t).isSome)) :
    Kept (Live.issueNextSentence emit w i t) := by
  have hawait : ∀ {w' : World}, Kept w' → Kept (w'.setPlayer i (w'.ctx.players i).awaitEnd) :=
    fun hw' => hw'.setPlayer i ⟨rfl, rfl, rfl, rfl⟩
  rw [Live.issueNextSentence]
  simp only
  by_cases htime : t ≥ w.ctx.room.gameEndMs ∨
      w.ctx.room.gameEndMs - t < w.ctx.room.sentenceTimeoutMs t
  · rw [if_pos htime]
    exact hawait hw
  rw [if_neg htime]
  rw [not_or, UInt64.not_le, UInt64.not_lt] at htime
  cases hk : Room.phaseIndex (w.ctx.room.phaseAt t) with
  | none => exact hawait (h.emitError_kept hw _ _)
  | some k =>
      simp only
      cases hens : w.ctx.spawn.ensureCursor (w.ctx.room.phaseAt t)
          ((w.ctx.players i).phaseCursor k) with
      | mk ok spawn =>
          have hspawned : Kept (w.withCtx { w.ctx with spawn := spawn }) := hw.withCtx hw.plugged
          cases ok with
          | false => exact hawait (h.emitError_kept hspawned _ _)
          | true =>
              simp only
              cases hsent : spawn.sentenceAt (w.ctx.room.phaseAt t)
                  ((w.ctx.players i).phaseCursor k) with
              | none => exact hawait hspawned
              | some sent =>
                  simp only
                  -- There is a next sentence, so there must be somebody to send it to.
                  have hself := hnext.resolve_right fun hnone => hnone ⟨htime, by
                    simp [nextSentence, hk, hens, hsent]⟩
                  have hlinks : SameLinks (w.ctx.players i) ((w.ctx.players i).deal sent
                      (w.ctx.room.phaseAt t) t (w.ctx.room.sentenceTimeoutMs t)) :=
                    ⟨rfl, rfl, rfl, rfl⟩
                  refine h.keeps _ _ _ _ (hspawned.setPlayer i hlinks) fun _ => ?_
                  cases hconn : (w.ctx.players i).connPtr with
                  | some conn =>
                      refine .inl ⟨i, conn, rfl, rfl, ?_⟩
                      rw [World.setPlayer, World.withCtx, players_setPlayer_self]
                      exact hconn
                  | none =>
                      rw [hconn] at hself
                      have hdeaf : Deaf (w.withCtx { w.ctx with spawn := spawn }) :=
                        hself.resolve_left (by simp)
                      exact .inr (.inr ⟨rfl, deaf_setPlayer hlinks hdeaf⟩)

theorem kept_advance {w : World} (hw : Kept w) {i : Fin maxRoomPlayers} {t : UInt64}
    (hnext : ((w.ctx.players i).connPtr.isSome ∨ Deaf w) ∨ NoneLeft w.ctx i t) :
    Kept (Live.advance emit w i t) := by
  have hlinks := sameLinks_advanceCursor (w.ctx.players i)
  have hself : ((w.setPlayer i (w.ctx.players i).advanceCursor).ctx.players i) =
      (w.ctx.players i).advanceCursor := players_setPlayer_self _ _ _
  refine kept_issueNextSentence h (hw.setPlayer i hlinks) ?_
  rw [hself, hlinks.connPtr]
  refine hnext.imp (Or.imp_right (deaf_setPlayer hlinks)) fun hnone => ?_
  exact hnone

/-- A message to a player, and what is left of the connection. -/
theorem Tame.told {w : World} (hw : Kept w) {i : Fin maxRoomPlayers} {conn : Conn}
    (hconn : (w.ctx.players i).connPtr = some conn ∨ conn ∈ w.closing) (payload : Payload) :
    Kept (emit w (some i) (some conn) payload) ∧
      (conn ∈ w.closing ∨ wire.fails w.sends = false →
        (emit w (some i) (some conn) payload).ctx.players = w.ctx.players) ∧
      (wire.fails w.sends = true → conn ∈ (emit w (some i) (some conn) payload).closing) := by
  refine ⟨h.keeps _ _ _ _ hw fun _ => ?_, fun hsucceeds => ?_, h.shuts w _ conn payload⟩
  · rcases hconn with hconn | hclosing
    · exact .inl ⟨i, conn, rfl, rfl, hconn⟩
    · exact .inr (.inl ⟨conn, rfl, hclosing⟩)
  · rw [(h.succeeds w _ conn payload hsucceeds).1]
    rfl

/-- Two messages to a player: the connection is shut down or nothing has happened to the players,
and nothing has if no send fails. -/
theorem Tame.toldTwice {w : World} (hw : Kept w) {i : Fin maxRoomPlayers} {conn : Conn}
    (hconn : (w.ctx.players i).connPtr = some conn) (result : Payload) (score : World → Payload) :
    let w₁ := emit w (some i) (some conn) result
    let w₂ := emit w₁ (some i) (some conn) (score w₁)
    Kept w₂ ∧ (conn ∈ w₂.closing ∨ w₂.ctx.players = w.ctx.players) ∧
      (conn ∈ w.closing ∨ wire.fails w.sends = false ∧ wire.fails (w.sends + 1) = false →
        w₂.ctx.players = w.ctx.players) := by
  intro w₁ w₂
  obtain ⟨hw₁, hsame₁, hshut₁⟩ : Kept w₁ ∧ _ := h.told hw (.inl hconn) result
  have hclosing₁ : conn ∈ w.closing → conn ∈ w₁.closing := (h.shrinks _ _ _ _).closing conn
  have hstate₁ : conn ∈ w₁.closing ∨ w₁.ctx.players = w.ctx.players := by
    cases hfails : wire.fails w.sends with
    | true => exact .inl (hshut₁ hfails)
    | false => exact .inr (hsame₁ (.inr hfails))
  have hlink₁ : (w₁.ctx.players i).connPtr = some conn ∨ conn ∈ w₁.closing :=
    hstate₁.symm.imp_left fun hsame => by rw [hsame, hconn]
  obtain ⟨hw₂, hsame₂, hshut₂⟩ : Kept w₂ ∧ _ := h.told hw₁ hlink₁ (score w₁)
  refine ⟨hw₂, ?_, fun hsucceeds => ?_⟩
  · rcases hstate₁ with hclosing | hsame
    · exact .inl ((h.shrinks _ _ _ _).closing conn hclosing)
    · cases hfails : wire.fails w₁.sends with
      | true => exact .inl (hshut₂ hfails)
      | false => exact .inr ((hsame₂ (.inr hfails)).trans hsame)
  · by_cases hclosing : conn ∈ w.closing
    · exact (hsame₂ (.inl (hclosing₁ hclosing))).trans (hsame₁ (.inl hclosing))
    · obtain ⟨hfirst, hsecond⟩ := hsucceeds.resolve_left hclosing
      obtain ⟨-, -, hsends⟩ := h.succeeds w (some i) conn result (.inr hfirst)
      rw [if_neg hclosing] at hsends
      exact (hsame₂ (.inr (by rw [hsends]; exact hsecond))).trans (hsame₁ (.inr hfirst))

/-- **The end of a submission that retires a sentence.** If a message has shut the connection
down, the next sentence reaches nobody: nobody else is there, or there is none. -/
theorem kept_told_submit {w : World} (hw : Kept w) {i : Fin maxRoomPlayers} {conn : Conn}
    {t : UInt64} (hconn : (w.ctx.players i).connPtr = some conn) (result : Payload)
    (score : World → Payload)
    (htold : ¬ OthersOpen w i ∨ Stalled w.ctx i t ∨ conn ∈ w.closing ∨
      wire.fails w.sends = false ∧ wire.fails (w.sends + 1) = false) :
    let w₁ := emit w (some i) (some conn) result
    Kept (Live.advance emit (emit w₁ (some i) (some conn) (score w₁)) i t) := by
  intro w₁
  obtain ⟨hw₂, hstate, hsucceeds⟩ := h.toldTwice hw hconn result score
  have hshrinks : Shrinks w (emit w₁ (some i) (some conn) (score w₁)) :=
    (h.shrinks _ _ _ _).trans (h.shrinks _ _ _ _)
  refine kept_advance h hw₂ ?_
  have hsame : (emit w₁ (some i) (some conn) (score w₁)).ctx.players = w.ctx.players →
      ((emit w₁ (some i) (some conn) (score w₁)).ctx.players i).connPtr.isSome := by
    intro hplayers
    rw [hplayers, hconn]
    rfl
  rcases hstate with hshut | hplayers
  · obtain hothers | hstalled | htold := htold
    · exact .inl (.inr (deaf_of_shut hshrinks hconn hshut hothers))
    · have hstalled' := h.stalls _ (some i) (some conn) (score w₁) _ _
        (h.stalls _ (some i) (some conn) result _ _ hstalled)
      exact .inr hstalled'.noneLeft
    · exact .inl (.inl (hsame (hsucceeds htold)))
  · exact .inl (.inl (hsame hplayers))

/-- **The end of a deadline.** The score goes to whatever connection the player has then. -/
theorem kept_told_deadline {w : World} (hw : Kept w) {i : Fin maxRoomPlayers} {conn : Conn}
    {t : UInt64} (hconn : (w.ctx.players i).connPtr = some conn) (result : Payload)
    (score : World → Payload)
    (htold : ¬ OthersOpen w i ∨ conn ∈ w.closing ∨ wire.fails w.sends = false ∧
      (wire.fails (w.sends + 1) = false ∨ Stalled w.ctx i t)) :
    let w₁ := emit w (some i) (some conn) result
    Kept (Live.advance emit (emit w₁ (some i) (w₁.ctx.players i).connPtr (score w₁)) i t) := by
  intro w₁
  obtain ⟨hw₁, hsame₁, hshut₁⟩ : Kept w₁ ∧ _ := h.told hw (.inl hconn) result
  by_cases hfirst : conn ∈ w.closing ∨ wire.fails w.sends = false
  · rw [hsame₁ hfirst, hconn]
    refine kept_told_submit h hw hconn result score (htold.imp_right fun hsent => ?_)
    rcases hsent with hclosing | ⟨hsucceeds, hnext | hstalled⟩
    · exact .inr (.inl hclosing)
    · exact .inr (.inr ⟨hsucceeds, hnext⟩)
    · exact .inl hstalled
  · -- The player is gone, and nobody else was there.
    obtain ⟨hopen, hfails⟩ := not_or.mp hfirst
    have hothers : ¬ OthersOpen w i :=
      htold.resolve_right fun hsent => hsent.elim hopen fun hsucceeds => hfails hsucceeds.1
    have hdeaf : Deaf w₁ :=
      deaf_of_shut (h.shrinks _ _ _ _) hconn (hshut₁ (by simpa using hfails)) hothers
    refine kept_advance h (h.keeps _ _ _ _ hw₁ fun _ => addressed_self (.inr hdeaf)) ?_
    exact .inl (.inr ((h.shrinks _ _ _ _).deaf hdeaf))

/-- The answer to a submission that is judged, and the next sentence if one is due. -/
theorem kept_judged {w : World} (hw : Kept w) {i : Fin maxRoomPlayers} {conn : Conn} {t : UInt64}
    (hconn : (w.ctx.players i).connPtr = some conn) (hstate : w.ctx.room.state = .playing)
    (k : Fin maxPhases) (sentenceId : UInt64) (input : Bytes) (jres : JudgeResult)
    (htold : jres = .correct ∨ jres = .expired → SubmitTold wire w i conn t) :
    let w₀ := w.setPlayer i ((w.ctx.players i).judged w.ctx.room k input jres t)
    let w₁ := emit w₀ (some i) (some conn) (.sentenceResult sentenceId jres)
    let w₂ := emit w₁ (some i) (some conn) (scoreUpdate (w₁.ctx.players i) sentenceId)
    Kept (if jres = .correct ∨ jres = .expired then Live.advance emit w₂ i t else w₂) := by
  have hlinks := sameLinks_judged (w.ctx.players i) w.ctx.room k input jres t
  generalize hp : (w.ctx.players i).judged w.ctx.room k input jres t = p at hlinks ⊢
  have hself : (w.setPlayer i p).ctx.players i = p := players_setPlayer_self _ _ _
  have hconn' : ((w.setPlayer i p).ctx.players i).connPtr = some conn := by
    rw [hself, hlinks.connPtr, hconn]
  intro w₀ w₁ w₂
  by_cases hadvance : jres = .correct ∨ jres = .expired
  · rw [if_pos hadvance]
    refine kept_told_submit h (hw.setPlayer i hlinks) hconn' _
      (fun w₁ => scoreUpdate (w₁.ctx.players i) sentenceId) ?_
    by_cases hothers : OthersOpen w i
    · by_cases hnone : NoneLeft w.ctx i t
      · refine .inr (.inl (.inl ⟨hstate, hnone.congr rfl rfl ?_ ?_⟩))
        · rw [hself, ← hp]
          cases jres <;> rfl
        · rw [hself, ← hp]
          cases jres <;> rfl
      · exact .inr (.inr (htold hadvance hothers hnone))
    · exact .inl fun h => hothers (othersOpen_setPlayer h)
  · rw [if_neg hadvance]
    exact (h.toldTwice (hw.setPlayer i hlinks) hconn' _
      fun w₁ => scoreUpdate (w₁.ctx.players i) sentenceId).1

theorem kept_submit {w : World} (hw : Kept w) (conn : Conn) (sentenceId : UInt64) (input : Bytes)
    (nowMs : UInt64)
    (htold : ∀ i k target jres, findPlayerByConn w.ctx conn = some i →
      Judged w.ctx i sentenceId input (w.ctx.clock nowMs) k target jres →
      jres = .correct ∨ jres = .expired → SubmitTold wire w i conn (w.ctx.clock nowMs)) :
    Kept (Live.submit emit w conn sentenceId input nowMs) := by
  rw [Live.submit]
  by_cases hstate : w.ctx.room.state ≠ .playing
  · rw [if_pos hstate]
    exact hw
  rw [if_neg hstate]
  rw [not_not] at hstate
  simp only
  have hclock : (if nowMs = 0 then w.ctx.lastTickMs else nowMs) = w.ctx.clock nowMs := rfl
  rw [hclock]
  generalize w.ctx.clock nowMs = t at htold ⊢
  cases hi : findPlayerByConn w.ctx conn with
  | none => exact hw
  | some i =>
      have hconn : (w.ctx.players i).connPtr = some conn := by
        have := List.find?_some hi
        simp only [Bool.and_eq_true, decide_eq_true_eq] at this
        exact this.2
      have hstale : Kept (emit w (some i) (some conn) (.sentenceResult sentenceId .stale)) :=
        (h.told hw (.inl hconn) _).1
      simp only
      by_cases hout : (!(w.ctx.players i).connected) = true ∨ (w.ctx.players i).finishStatus ≠ .none
      · rw [if_pos hout]
        exact hw
      rw [if_neg hout]
      by_cases hidle : (w.ctx.players i).awaitingGameEnd = true ∨
          (w.ctx.players i).activeSentenceId = 0
      · rw [if_pos hidle]
        exact hstale
      rw [if_neg hidle]
      cases hk : Room.phaseIndex (w.ctx.players i).activePhase with
      | none => exact h.emitError_kept hw _ _
      | some k =>
          simp only
          cases htarget : w.ctx.spawn.sentenceAt (w.ctx.players i).activePhase
              ((w.ctx.players i).phaseCursor k) with
          | none => exact hw
          | some target =>
              simp only
              obtain ⟨hconnected, hunfinished⟩ := not_or.mp hout
              obtain ⟨hplays, hactive⟩ := not_or.mp hidle
              have hj : Judged w.ctx i sentenceId input t k target _ :=
                ⟨hstate, by simpa using hconnected, not_not.mp hunfinished, by simpa using hplays,
                  hactive, hk, htarget, rfl⟩
              generalize judgeSubmit target (w.ctx.players i).activeSentenceId sentenceId input t
                (w.ctx.players i).sentenceDeadlineMs w.ctx.room.language = jres at hj ⊢
              by_cases herror : jres = .error
              · rw [if_pos herror]
                exact h.emitError_kept hw _ _
              rw [if_neg herror]
              by_cases hst : jres = .stale
              · rw [if_pos hst]
                exact hstale
              rw [if_neg hst]
              exact kept_judged h hw hconn hstate k sentenceId input jres (htold i k target jres hi hj)

/-! ### Ticks -/

theorem kept_expirePlayer {w : World} (hw : Kept w) {i : Fin maxRoomPlayers} {t : UInt64}
    (htold : Due w i t → DeadlineTold wire w i t) : Kept (Live.expirePlayer emit t w i) := by
  rw [Live.expirePlayer]
  simp only
  split_ifs with hplays hdue
  · simp only [Bool.and_eq_true, decide_eq_true_eq] at hplays
    obtain ⟨⟨hocc, hcon⟩, hfinish⟩ := hplays
    have hsends := htold ⟨hocc, hcon, hfinish, hdue.1, hdue.2⟩
    obtain ⟨conn, hconn⟩ := Option.isSome_iff_exists.mp (hw.plugged i hocc (.inl hcon))
    generalize hp : updatePlayerStats w.ctx.room
      { w.ctx.players i with expiredCount := (w.ctx.players i).expiredCount + 1 } t = p
    have hlinks : SameLinks (w.ctx.players i) p := by
      rw [← hp]
      exact ⟨rfl, rfl, rfl, rfl⟩
    have hself : (w.setPlayer i p).ctx.players i = p := players_setPlayer_self _ _ _
    rw [hconn]
    refine kept_told_deadline h (hw.setPlayer i hlinks) (by rw [hself, hlinks.connPtr, hconn]) _
      (fun w₁ => scoreUpdate (w₁.ctx.players i) (w.ctx.players i).activeSentenceId) ?_
    by_cases hothers : OthersOpen w i
    · obtain hclosing | ⟨hfirst, hsecond⟩ := hsends hothers conn hconn
      · exact .inr (.inl hclosing)
      · refine .inr (.inr ⟨hfirst, hsecond.imp_right fun hboth => ?_⟩)
        obtain ⟨hstate, hnone⟩ := hboth
        refine .inl ⟨hstate, hnone.congr rfl rfl ?_ ?_⟩
        · rw [hself, ← hp]
          rfl
        · rw [hself, ← hp]
          rfl
    · exact .inl fun h => hothers (othersOpen_setPlayer h)
  · exact hw
  · exact hw

theorem kept_expirePlayers {t : UInt64} {w : World} (hw : Kept w) {is : List (Fin maxRoomPlayers)}
    (htold : DeadlinesTold wire emit t w is) : Kept (is.foldl (Live.expirePlayer emit t) w) := by
  induction is generalizing w with
  | nil => exact hw
  | cons i is ih => exact ih (kept_expirePlayer h hw htold.1) htold.2

theorem kept_dealPlayer {t : UInt64} {w : World} (hw : Kept w) (i : Fin maxRoomPlayers) :
    Kept (Live.dealPlayer emit t w i) := by
  rw [Live.dealPlayer]
  split_ifs with hplays
  · rw [Bool.and_eq_true] at hplays
    exact kept_issueNextSentence h hw (.inl (.inl (hw.plugged i hplays.1 (.inl hplays.2))))
  · exact hw

theorem kept_finishPlayer {w : World} (hw : Kept w) (i : Fin maxRoomPlayers) :
    Kept (Live.finishPlayer emit w i) := by
  -- A player that finishes needs no connection that it did not need before.
  have hfinish : ∀ {w' : World} (p : Player), Kept w' →
      p.occupied = (w'.ctx.players i).occupied → p.connected = (w'.ctx.players i).connected →
      p.connPtr = (w'.ctx.players i).connPtr → p.finishStatus = .finished →
      Kept (w'.setPlayer i p) := by
    intro w' p hw' hocc hcon hptr hfinished
    refine hw'.withCtx (hw'.plugged.update i fun ho hneeds => ?_)
    rw [hfinished, hcon] at hneeds
    rw [hptr]
    exact hw'.plugged i (hocc ▸ ho) (.inl (hneeds.resolve_right (by simp)))
  rw [Live.finishPlayer]
  simp only
  by_cases hplays : ((w.ctx.players i).occupied &&
      decide ((w.ctx.players i).finishStatus = .none)) = true
  · rw [if_pos hplays]
    simp only [Bool.and_eq_true, decide_eq_true_eq] at hplays
    by_cases hexpires : (w.ctx.players i).activeSentenceId ≠ 0 ∧
        (w.ctx.players i).sentenceDeadlineMs ≤ w.ctx.room.gameEndMs
    · simp only [if_pos hexpires]
      refine hfinish _ ?_ rfl rfl rfl rfl
      have hlinks : SameLinks (w.ctx.players i) { (w.ctx.players i).clearSentence with
          expiredCount := (w.ctx.players i).expiredCount + 1 } := ⟨rfl, rfl, rfl, rfl⟩
      obtain ⟨conn, hconn⟩ := Option.isSome_iff_exists.mp (hw.plugged i hplays.1 (.inr hplays.2))
      rw [hconn]
      refine (h.told (hw.setPlayer i hlinks) (.inl ?_) _).1
      rw [World.setPlayer, World.withCtx, players_setPlayer_self]
      exact hconn
    · simp only [if_neg hexpires]
      exact hfinish _ hw rfl rfl rfl rfl
  · rw [if_neg hplays]
    exact hw

theorem kept_tickRoom {w : World} (hw : Kept w) (t : UInt64) :
    Kept (Live.tickRoom emit w t).2 := by
  have hevent : ∀ {w' : World} {payload : Payload}, ¬ payload.Private → Kept w' →
      Kept (emit w' none none payload) :=
    fun hpublic hw' => h.keeps _ _ _ _ hw' fun hp => absurd hp hpublic
  rw [Live.tickRoom]
  simp only
  have hpassed : Kept (w.withCtx
      { w.ctx with lastTickMs := t, room := (w.ctx.room.tick t).2 }) := hw.withCtx hw.plugged
  cases (w.ctx.room.tick t).1 with
  | none => exact hpassed
  | gameStarted =>
      refine kept_foldl (fun w i hw => kept_dealPlayer h hw i) ?_ slots
      exact h.emitRoomConfig_kept (hevent id hpassed)
  | phaseChanged => exact hevent id hpassed
  | gameEnded =>
      have hfinished := kept_foldl (fun w i hw => kept_finishPlayer h hw i) hpassed slots
      exact h.emitRoomConfig_kept (hevent id (hevent id hfinished))

theorem kept_tick {w : World} (hw : Kept w) (nowMs : UInt64)
    (htold : (Live.tickRoom emit w (w.ctx.clock nowMs)).1 = true →
      (Live.tickRoom emit w (w.ctx.clock nowMs)).2.ctx.room.state = .playing →
      DeadlinesTold wire emit (w.ctx.clock nowMs)
        (Live.tickRoom emit w (w.ctx.clock nowMs)).2 slots) : Kept (Live.tick emit w nowMs) := by
  have hroom := kept_tickRoom h hw (w.ctx.clock nowMs)
  have htick : Live.tick emit w nowMs =
      if (Live.tickRoom emit w (w.ctx.clock nowMs)).1 then
        Live.tickDeadlines emit (Live.tickRoom emit w (w.ctx.clock nowMs)).2 (w.ctx.clock nowMs)
      else (Live.tickRoom emit w (w.ctx.clock nowMs)).2 := rfl
  rw [htick]
  split_ifs with hgoes
  · rw [Live.tickDeadlines]
    split_ifs with hstate
    · exact kept_expirePlayers h hroom (htold hgoes hstate)
    · exact hroom
  · exact hroom

/-! ### The other calls -/

theorem kept_join {w : World} (hw : Kept w) (conn : Conn) : Kept (Live.join emit w conn) := by
  rw [Live.join]
  split_ifs
  · exact h.emitError_kept hw _ _
  · exact h.emitError_kept hw _ _
  · split
    · exact h.emitError_kept hw _ _
    · rename_i i _
      refine h.emitRoomConfig_kept (h.keeps _ _ _ _ (hw.withCtx ?_) fun hp => hp.elim)
      exact hw.plugged.update i fun _ _ => rfl

theorem kept_startGame {w : World} (hw : Kept w) (conn : Conn) (nowMs : UInt64) :
    Kept (Live.startGame emit w conn nowMs) := by
  have hreset : Plugged (if w.ctx.spawn.loaded then resetSpawnEngine w.ctx else w.ctx).players := by
    split_ifs
    · exact hw.plugged
    · exact hw.plugged
  rw [Live.startGame]
  by_cases hzero : nowMs = 0
  · rw [if_pos hzero]
    exact hw
  rw [if_neg hzero]
  by_cases hstate : w.ctx.room.state ≠ .waiting
  · rw [if_pos hstate]
    exact h.emitError_kept hw _ _
  rw [if_neg hstate]
  by_cases hhost : (!isHost w.ctx conn) = true
  · rw [if_pos hhost]
    exact h.emitError_kept (hw.withCtx hreset) _ _
  rw [if_neg hhost]
  by_cases hready : connectedCount w.ctx < minRoomPlayers ∨ readyCount w.ctx ≠ connectedCount w.ctx
  · rw [if_pos hready]
    exact h.emitError_kept (hw.withCtx hreset) _ _
  rw [if_neg hready]
  by_cases hloaded : (!w.ctx.spawn.loaded) = true
  · rw [if_pos hloaded]
    exact h.emitError_kept hw _ _
  rw [if_neg hloaded]
  split
  · have hunloaded : Plugged (resetSpawnEngine w.ctx).players := hw.plugged
    exact h.emitError_kept (hw.withCtx hunloaded) _ _
  · refine h.emitRoomConfig_kept (h.keeps _ _ _ _ (hw.withCtx ?_) fun hp => hp.elim)
    exact hw.plugged

theorem kept_settle {w : World} {ctx : Ctx} (hw : Kept w) (hctx : Settles w.ctx ctx) :
    Kept (Live.settle emit w ctx) := by
  obtain ⟨⟨evs, hsent, hpublic⟩, hplugged⟩ := hctx
  have hevents : ∀ (evs : List Event) (w : World), (∀ ev ∈ evs, ¬ ev.payload.Private) → Kept w →
      Kept (evs.foldl (fun w ev => emit w none ev.target ev.payload) w) := by
    intro evs
    induction evs with
    | nil => exact fun _ _ hw => hw
    | cons ev evs ih =>
        intro w hpublic hw
        refine ih _ (fun ev' hev' => hpublic ev' (List.mem_cons_of_mem ev hev')) ?_
        exact h.keeps _ _ _ _ hw fun hp => absurd hp (hpublic ev List.mem_cons_self)
  rw [Live.settle, hsent, List.drop_left]
  exact hevents evs _ hpublic (hw.withCtx (hplugged hw.plugged))

end Operations

/-! ### Runs -/

/-- **A call keeps messages private** if those sends do not fail. -/
theorem kept_exec {wire : Wire} {emit : Emit} (h : Tame wire emit) {w : World} (hw : Kept w)
    (op : Op) (htold : Told wire emit w op) : Kept (Live.exec emit w op) := by
  cases op with
  | join conn =>
      cases conn with
      | none => exact kept_settle h hw (settles_nothing _)
      | some conn => exact kept_join h hw conn
  | setLanguage conn lang =>
      cases conn with
      | none => exact kept_settle h hw (settles_nothing _)
      | some conn => exact kept_settle h hw (settles_setLanguage _ conn lang)
  | setDuration conn minutes =>
      cases conn with
      | none => exact kept_settle h hw (settles_nothing _)
      | some conn => exact kept_settle h hw (settles_setDuration _ conn minutes)
  | setReady conn =>
      cases conn with
      | none => exact kept_settle h hw (settles_nothing _)
      | some conn => exact kept_settle h hw (settles_setReady _ conn)
  | prepareStart db conn =>
      cases conn with
      | none => exact kept_settle h hw (settles_nothing _)
      | some conn => exact kept_settle h hw (settles_prepareStart _ db conn)
  | abortStart => exact kept_settle h hw (settles_abortStart _)
  | startGame conn nowMs =>
      cases conn with
      | none => exact kept_settle h hw (settles_nothing _)
      | some conn => exact kept_startGame h hw conn nowMs
  | submit conn sentenceId input nowMs =>
      cases conn with
      | none => exact kept_settle h hw (settles_nothing _)
      | some conn => exact kept_submit h hw conn sentenceId input nowMs htold
  | disconnect conn nowMs =>
      cases conn with
      | none => exact kept_settle h hw (settles_nothing _)
      | some conn => exact kept_disconnect h hw conn nowMs
  | tick nowMs => exact kept_tick h hw nowMs htold

/-- A run all of whose calls are told. -/
def ToldRun (wire : Wire) (fuel : ℕ) : World → List Act → Prop
  | _, [] => True
  | w, act :: acts =>
      (∀ op, act = .call op → Told wire (emitAt wire fuel) w op) ∧
        ToldRun wire fuel (Live.act wire fuel w act) acts

theorem kept_run {wire : Wire} {fuel : ℕ} {w : World} (hw : Kept w) {acts : List Act}
    (hacts : ToldRun wire fuel w acts) : Kept (Live.run wire fuel w acts) := by
  induction acts generalizing w with
  | nil => exact hw
  | cons act acts ih =>
      refine ih ?_ hacts.2
      cases act with
      | call op => exact kept_exec (tame_emitAt wire fuel) hw op (hacts.1 op rfl)
      | hangUp conn => exact ⟨hw.plugged, hw.owned⟩

/-- **Private messages stay private**: whatever sends fail, if those that tell a player about a
sentence that is done with do not while somebody else is there, every sentence, result and score
is sent to the connection of the player it concerns and to no other. -/
theorem private_delivery (wire : Wire) (fuel : ℕ) (roomId : UInt64) (profile : Profile)
    (acts : List Act) (hacts : ToldRun wire fuel (World.init roomId profile) acts) :
    ∀ d ∈ (Live.run wire fuel (World.init roomId profile) acts).delivered,
      d.payload.Private → d.owner = some d.conn := by
  have hinit : Kept (World.init roomId profile) :=
    ⟨plugged_zero, fun d hd => absurd hd List.not_mem_nil⟩
  exact (kept_run hinit hacts).owned

/-- A wire on which one send fails. -/
def failsAt (n : ℕ) : Wire := ⟨fun k => k == n, fun _ => 3002⟩

/-- A player whose first sentence cannot be sent is gone before the second player gets one. -/
theorem private_delivery_sample :
    let w := Live.run (failsAt 19) maxRoomPlayers (World.init 1 sampleProfile)
      (tinyGame.map Act.call)
    w.closing = [1] ∧ w.delivered.length = 21 ∧
      ∀ d ∈ w.delivered, d.payload.Private → d.owner = some d.conn := by
  have htold : ToldRun (failsAt 19) maxRoomPlayers (World.init 1 sampleProfile)
      (tinyGame.map Act.call) := by
    refine ⟨?_, ?_, ?_, ?_, ?_, ?_, ?_, ?_, trivial⟩
    iterate 7
      rintro op ⟨⟩
      trivial
    rintro op ⟨⟩ - -
    refine ⟨fun hdue => absurd hdue.2.1 Bool.false_ne_true,
      fun hdue => absurd hdue.2.2.2.2 (by decide), ?_, ?_, ?_, ?_, ?_, ?_, trivial⟩
    all_goals exact fun hdue => absurd hdue.1 Bool.false_ne_true
  intro w
  exact ⟨by decide +kernel, by decide +kernel, private_delivery (failsAt 19) maxRoomPlayers 1 sampleProfile _ htold⟩

/-- The result of a correct answer cannot be sent, and the next sentence of the player goes to the
other one. -/
theorem private_delivery_fails :
    let w := Live.run (failsAt 21) maxRoomPlayers (World.init 1 sampleProfile)
      ((tinyGame ++ [Op.submit (some 1) 1 [97] 3002]).map Act.call)
    ∃ d ∈ w.delivered, d.payload.Private ∧ d.conn = 2 ∧ d.owner = none := by
  decide +kernel

end ToosType
