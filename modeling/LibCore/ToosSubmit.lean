import LibCore.ToosRoster

/-!
# ToosType: Submissions

What one submission can do. `issueNextSentence_cases` and `submit_cases` say it once, with every
guard of the source; the rest of the development about sentences uses them and does not look at
the code again. A submission reaches the player of its connection and nobody else. A repeated
one is credited again only if the deck deals the same sentence twice in a row, which it can.

## Main results

* `issueNextSentence_cases`, `submit_cases`: the inversions.
* `submit_isolated`: the frame of a submission.
* `replay_credited_iff`: when a repeated submission is credited twice.
-/

open CString

namespace ToosType

/-! ### Events -/

/-- The context with more events. -/
def Ctx.emit (ctx : Ctx) (evs : List Event) : Ctx := { ctx with sent := ctx.sent ++ evs }

@[simp] theorem emit_nil (ctx : Ctx) : ctx.emit [] = ctx := by rw [Ctx.emit, List.append_nil]

@[simp] theorem room_emit (ctx : Ctx) (evs : List Event) : (ctx.emit evs).room = ctx.room := rfl

@[simp] theorem players_emit (ctx : Ctx) (evs : List Event) :
    (ctx.emit evs).players = ctx.players := rfl

@[simp] theorem spawn_emit (ctx : Ctx) (evs : List Event) : (ctx.emit evs).spawn = ctx.spawn := rfl

@[simp] theorem room_setPlayer (ctx : Ctx) (i : Fin maxRoomPlayers) (p : Player) :
    (ctx.setPlayer i p).room = ctx.room := rfl

@[simp] theorem players_setPlayer_self (ctx : Ctx) (i : Fin maxRoomPlayers) (p : Player) :
    (ctx.setPlayer i p).players i = p := Function.update_self _ _ _

theorem players_setPlayer_of_ne (ctx : Ctx) {i j : Fin maxRoomPlayers} (p : Player) (h : j ≠ i) :
    (ctx.setPlayer i p).players j = ctx.players j := Function.update_of_ne h _ _

/-- A payload that does not deal a sentence. -/
def Payload.Plain : Payload → Prop
  | .sentenceDrop _ _ _ => False
  | _ => True

/-- Events that deal no sentence. -/
def Plain (evs : List Event) : Prop := ∀ ev ∈ evs, ev.payload.Plain

/-! ### The next sentence -/

/-- Whether there is time for another sentence. -/
def Room.HasTime (room : Room) (nowMs : UInt64) : Prop :=
  nowMs < room.gameEndMs ∧ room.sentenceTimeoutMs nowMs ≤ room.gameEndMs - nowMs

/-- The player after a sentence has been dealt. -/
def Player.deal (p : Player) (sent : Sentence) (phase : UInt32) (nowMs timeout : UInt64) : Player :=
  { p with
    activeSentenceId := sent.id, activePhase := phase, sentenceSpawnMs := nowMs,
    sentenceDeadlineMs := nowMs + timeout }

/-- The text a player sees. -/
def Room.textOf (room : Room) (sent : Sentence) : Bytes :=
  if room.language = .en then sent.enText else sent.koText

/-- The sentence the deck deals to a player at a time. -/
def nextSentence (ctx : Ctx) (p : Player) (nowMs : UInt64) : Option Sentence :=
  match Room.phaseIndex (ctx.room.phaseAt nowMs) with
  | none => none
  | some k =>
      let (ok, spawn) := ctx.spawn.ensureCursor (ctx.room.phaseAt nowMs) (p.phaseCursor k)
      if ok then spawn.sentenceAt (ctx.room.phaseAt nowMs) (p.phaseCursor k) else none

/-- The deck after an attempt to deal a sentence. -/
def nextSpawn (ctx : Ctx) (p : Player) (nowMs : UInt64) : SpawnEngine :=
  match Room.phaseIndex (ctx.room.phaseAt nowMs) with
  | none => ctx.spawn
  | some k => (ctx.spawn.ensureCursor (ctx.room.phaseAt nowMs) (p.phaseCursor k)).2

/-- A sentence is dealt, or the player waits for the end of the game. -/
theorem issueNextSentence_cases (ctx : Ctx) (i : Fin maxRoomPlayers) (nowMs : UInt64) :
    (∃ k sent, ctx.room.HasTime nowMs ∧ Room.phaseIndex (ctx.room.phaseAt nowMs) = some k ∧
      nextSentence ctx (ctx.players i) nowMs = some sent ∧
      issueNextSentence ctx i nowMs =
        (({ ctx with spawn := nextSpawn ctx (ctx.players i) nowMs }).setPlayer i
          ((ctx.players i).deal sent (ctx.room.phaseAt nowMs) nowMs
            (ctx.room.sentenceTimeoutMs nowMs))).emit
          [⟨(ctx.players i).connPtr, .sentenceDrop sent.id (ctx.room.textOf sent)
            (ctx.room.sentenceTimeoutMs nowMs)⟩]) ∨
    (¬ (ctx.room.HasTime nowMs ∧ (nextSentence ctx (ctx.players i) nowMs).isSome) ∧
      ∃ spawn evs, (spawn = ctx.spawn ∨ spawn = nextSpawn ctx (ctx.players i) nowMs) ∧ Plain evs ∧
        issueNextSentence ctx i nowMs =
          (({ ctx with spawn := spawn }).setPlayer i (ctx.players i).awaitEnd).emit evs) := by
  have hplain : Plain [] := fun ev hev => absurd hev List.not_mem_nil
  have herror : ∀ conn msg, Plain [⟨conn, .error msg⟩] := by
    intro conn msg ev hev
    rw [List.mem_singleton] at hev
    rw [hev]
    trivial
  rw [issueNextSentence, nextSentence, nextSpawn]
  simp only
  by_cases htime : nowMs ≥ ctx.room.gameEndMs ∨
      ctx.room.gameEndMs - nowMs < ctx.room.sentenceTimeoutMs nowMs
  · rw [if_pos htime]
    refine .inr ⟨?_, ctx.spawn, [], .inl rfl, hplain, (emit_nil _).symm⟩
    rintro ⟨⟨hlt, hle⟩, -⟩
    rcases htime with htime | htime
    · exact absurd hlt (UInt64.not_lt.mpr htime)
    · exact absurd hle (UInt64.not_le.mpr htime)
  · rw [if_neg htime]
    rw [not_or, UInt64.not_le, UInt64.not_lt] at htime
    cases hk : Room.phaseIndex (ctx.room.phaseAt nowMs) with
    | none => exact .inr ⟨by simp, ctx.spawn, _, .inl rfl, herror _ _, rfl⟩
    | some k =>
        simp only
        cases hens : ctx.spawn.ensureCursor (ctx.room.phaseAt nowMs)
            ((ctx.players i).phaseCursor k) with
        | mk ok spawn =>
            cases ok with
            | false => exact .inr ⟨by simp, spawn, _, .inr rfl, herror _ _, rfl⟩
            | true =>
                simp only [if_true]
                cases hsent : spawn.sentenceAt (ctx.room.phaseAt nowMs)
                    ((ctx.players i).phaseCursor k) with
                | none => exact .inr ⟨by simp, spawn, [], .inr rfl, hplain, (emit_nil _).symm⟩
                | some sent => exact .inl ⟨k, sent, htime, rfl, rfl, rfl⟩

theorem room_issueNextSentence (ctx : Ctx) (i : Fin maxRoomPlayers) (nowMs : UInt64) :
    (issueNextSentence ctx i nowMs).room = ctx.room := by
  obtain ⟨k, sent, -, -, -, heq⟩ | ⟨-, spawn, evs, -, -, heq⟩ := issueNextSentence_cases ctx i nowMs
  · rw [heq]
    rfl
  · rw [heq]
    rfl

theorem lastTickMs_issueNextSentence (ctx : Ctx) (i : Fin maxRoomPlayers) (nowMs : UInt64) :
    (issueNextSentence ctx i nowMs).lastTickMs = ctx.lastTickMs := by
  obtain ⟨k, sent, -, -, -, heq⟩ | ⟨-, spawn, evs, -, -, heq⟩ := issueNextSentence_cases ctx i nowMs
  · rw [heq]
    rfl
  · rw [heq]
    rfl

theorem players_issueNextSentence_of_ne (ctx : Ctx) {i j : Fin maxRoomPlayers} (nowMs : UInt64)
    (h : j ≠ i) : (issueNextSentence ctx i nowMs).players j = ctx.players j := by
  obtain ⟨k, sent, -, -, -, heq⟩ | ⟨-, spawn, evs, -, -, heq⟩ := issueNextSentence_cases ctx i nowMs
  · rw [heq, players_emit, players_setPlayer_of_ne _ _ h]
  · rw [heq, players_emit, players_setPlayer_of_ne _ _ h]

/-! ### Submissions -/

/-- The time an operation uses: `now_ms`, or the time of the last tick for zero. -/
def Ctx.clock (ctx : Ctx) (nowMs : UInt64) : UInt64 := if nowMs = 0 then ctx.lastTickMs else nowMs

/-- The judge is asked about the sentence `target` of the player in slot `i`, in phase `k + 1`,
and answers. -/
structure Judged (ctx : Ctx) (i : Fin maxRoomPlayers) (sentenceId : UInt64) (input : Bytes)
    (nowMs : UInt64) (k : Fin maxPhases) (target : Sentence) (jres : JudgeResult) : Prop where
  playing : ctx.room.state = .playing
  connected : (ctx.players i).connected = true
  unfinished : (ctx.players i).finishStatus = .none
  playsOn : (ctx.players i).awaitingGameEnd = false
  active : (ctx.players i).activeSentenceId ≠ 0
  phase : Room.phaseIndex (ctx.players i).activePhase = some k
  dealt : ctx.spawn.sentenceAt (ctx.players i).activePhase ((ctx.players i).phaseCursor k) =
    some target
  answer : judgeSubmit target (ctx.players i).activeSentenceId sentenceId input nowMs
    (ctx.players i).sentenceDeadlineMs ctx.room.language = jres

theorem Judged.unique {ctx : Ctx} {i : Fin maxRoomPlayers} {sentenceId : UInt64} {input : Bytes}
    {nowMs : UInt64} {k k' : Fin maxPhases} {target target' : Sentence} {jres jres' : JudgeResult}
    (h : Judged ctx i sentenceId input nowMs k target jres)
    (h' : Judged ctx i sentenceId input nowMs k' target' jres') : jres = jres' := by
  obtain rfl := Option.some.inj (h.phase.symm.trans h'.phase)
  obtain rfl := Option.some.inj (h.dealt.symm.trans h'.dealt)
  exact h.answer.symm.trans h'.answer

/-- The player with the counters of a judgement. -/
def Player.judged (p : Player) (room : Room) (k : Fin maxPhases) (input : Bytes)
    (jres : JudgeResult) (nowMs : UInt64) : Player :=
  updatePlayerStats room (p.credit room k input jres) nowMs

/-- The context after an answer of the judge that counts. -/
def afterJudge (ctx : Ctx) (i : Fin maxRoomPlayers) (conn : Conn) (sentenceId : UInt64)
    (input : Bytes) (nowMs : UInt64) (k : Fin maxPhases) (jres : JudgeResult) : Ctx :=
  let p := (ctx.players i).judged ctx.room k input jres nowMs
  let told := ((ctx.setPlayer i p).emit [⟨some conn, .sentenceResult sentenceId jres⟩]).emit
    [⟨some conn, scoreUpdate p sentenceId⟩]
  if jres = .correct ∨ jres = .expired then
    issueNextSentence (told.setPlayer i p.advanceCursor) i nowMs
  else told

/-- A submission that the judge does not count, or one it does. -/
inductive Submitted (ctx : Ctx) (conn : Conn) (sentenceId : UInt64) (input : Bytes)
    (nowMs : UInt64) : Ctx → Prop
  | ignored (evs : List Event) (hplain : Plain evs)
      (herror : ∀ ev ∈ evs, ev.payload = .error "JUDGE_INTERNAL_ERROR" →
        ∃ i k target, findPlayerByConn ctx conn = some i ∧
          Judged ctx i sentenceId input (ctx.clock nowMs) k target .error)
      (hjudge : ∀ i k target jres, findPlayerByConn ctx conn = some i →
        Judged ctx i sentenceId input (ctx.clock nowMs) k target jres →
        jres = .error ∨ jres = .stale) :
      Submitted ctx conn sentenceId input nowMs (ctx.emit evs)
  | counted (i : Fin maxRoomPlayers) (k : Fin maxPhases) (target : Sentence) (jres : JudgeResult)
      (hi : findPlayerByConn ctx conn = some i)
      (hjudge : Judged ctx i sentenceId input (ctx.clock nowMs) k target jres)
      (herror : jres ≠ .error) (hstale : jres ≠ .stale) :
      Submitted ctx conn sentenceId input nowMs
        (afterJudge ctx i conn sentenceId input (ctx.clock nowMs) k jres)

theorem Submitted.silent {ctx : Ctx} {conn : Conn} {sentenceId : UInt64} {input : Bytes}
    {nowMs : UInt64} (h : ∀ i k target jres, findPlayerByConn ctx conn = some i →
      Judged ctx i sentenceId input (ctx.clock nowMs) k target jres →
      jres = .error ∨ jres = .stale) :
    Submitted ctx conn sentenceId input nowMs ctx := by
  have hempty := Submitted.ignored [] (by simp [Plain]) (by simp) h
  rwa [emit_nil] at hempty

/-- **What a submission does.** -/
theorem submit_cases (ctx : Ctx) (conn : Conn) (sentenceId : UInt64) (input : Bytes)
    (nowMs : UInt64) :
    Submitted ctx conn sentenceId input nowMs (submit ctx conn sentenceId input nowMs).2 := by
  have hstale : Plain [⟨some conn, .sentenceResult sentenceId .stale⟩] := by
    simp [Plain, Payload.Plain]
  have herror : ∀ msg, Plain [⟨some conn, .error msg⟩] := by simp [Plain, Payload.Plain]
  rw [submit]
  by_cases hplaying : ctx.room.state ≠ .playing
  · rw [if_pos hplaying]
    exact .silent fun i k target jres _ h => absurd h.playing hplaying
  rw [if_neg hplaying]
  rw [not_not] at hplaying
  simp only
  cases hi : findPlayerByConn ctx conn with
  | none => exact .silent fun i k target jres h => by simp [hi] at h
  | some i =>
      simp only
      -- What is known of the slot of the connection decides for every judgement about it.
      have hslot : ∀ {i' : Fin maxRoomPlayers}, findPlayerByConn ctx conn = some i' → i' = i :=
        fun h => Option.some.inj (h.symm.trans hi)
      by_cases hout : (!(ctx.players i).connected) = true ∨ (ctx.players i).finishStatus ≠ .none
      · rw [if_pos hout]
        refine .silent fun i' k target jres h hj => ?_
        obtain rfl := hslot h
        simp [hj.connected, hj.unfinished] at hout
      rw [if_neg hout]
      by_cases hidle : (ctx.players i).awaitingGameEnd = true ∨
          (ctx.players i).activeSentenceId = 0
      · rw [if_pos hidle]
        refine .ignored _ hstale (by simp) fun i' k target jres h hj => ?_
        obtain rfl := hslot h
        simp [hj.playsOn, hj.active] at hidle
      rw [if_neg hidle]
      cases hk : Room.phaseIndex (ctx.players i).activePhase with
      | none =>
          refine .ignored _ (herror _) (by simp) fun i' k target jres h hj => ?_
          obtain rfl := hslot h
          exact absurd (hk.symm.trans hj.phase) (by simp)
      | some k =>
          simp only
          cases htarget : ctx.spawn.sentenceAt (ctx.players i).activePhase
              ((ctx.players i).phaseCursor k) with
          | none =>
              refine .silent fun i' k' target jres h hj => ?_
              obtain rfl := hslot h
              obtain rfl := Option.some.inj (hk.symm.trans hj.phase)
              exact absurd (htarget.symm.trans hj.dealt) (by simp)
          | some target =>
              simp only
              obtain ⟨hconnected, hunfinished⟩ := not_or.mp hout
              obtain ⟨hplays, hactive⟩ := not_or.mp hidle
              have hj : Judged ctx i sentenceId input (ctx.clock nowMs) k target _ :=
                ⟨hplaying, by simpa using hconnected, not_not.mp hunfinished, by simpa using hplays,
                  hactive, hk, htarget, rfl⟩
              rw [Ctx.clock] at hj
              generalize hres : judgeSubmit target (ctx.players i).activeSentenceId sentenceId input
                (if nowMs = 0 then ctx.lastTickMs else nowMs) (ctx.players i).sentenceDeadlineMs
                ctx.room.language = jres at hj ⊢
              have hsame : ∀ i' k' target' jres', findPlayerByConn ctx conn = some i' →
                  Judged ctx i' sentenceId input (ctx.clock nowMs) k' target' jres' →
                  jres' = jres := by
                intro i' k' target' jres' h hj'
                obtain rfl := hslot h
                exact hj'.unique hj
              by_cases herr : jres = .error
              · rw [if_pos herr]
                refine .ignored _ (herror _) (fun _ _ _ => ⟨i, k, target, hi, herr ▸ hj⟩) ?_
                exact fun i' k' target' jres' h hj' => .inl (hsame i' k' target' jres' h hj' ▸ herr)
              by_cases hst : jres = .stale
              · rw [if_neg herr, if_pos hst]
                refine .ignored _ hstale (by simp) ?_
                exact fun i' k' target' jres' h hj' => .inr (hsame i' k' target' jres' h hj' ▸ hst)
              · rw [if_neg herr, if_neg hst]
                have hcounted := Submitted.counted i k target jres hi hj herr hst
                rw [afterJudge] at hcounted
                by_cases hadvance : jres = .correct ∨ jres = .expired
                · rw [if_pos hadvance] at hcounted ⊢
                  exact hcounted
                · rw [if_neg hadvance] at hcounted ⊢
                  exact hcounted

theorem submit_of_judged {ctx : Ctx} {conn : Conn} {i : Fin maxRoomPlayers} {sentenceId : UInt64}
    {input : Bytes} {nowMs : UInt64} {k : Fin maxPhases} {target : Sentence} {jres : JudgeResult}
    (hi : findPlayerByConn ctx conn = some i)
    (hj : Judged ctx i sentenceId input (ctx.clock nowMs) k target jres)
    (herror : jres ≠ .error) (hstale : jres ≠ .stale) :
    (submit ctx conn sentenceId input nowMs).2 =
      afterJudge ctx i conn sentenceId input (ctx.clock nowMs) k jres := by
  have hcases := submit_cases ctx conn sentenceId input nowMs
  generalize (submit ctx conn sentenceId input nowMs).2 = after at hcases ⊢
  cases hcases with
  | ignored evs hplain _ hjudge =>
      exact ((hjudge i k target jres hi hj).elim herror hstale).elim
  | counted i' k' target' jres' hi' hj' _ _ =>
      obtain rfl := Option.some.inj (hi.symm.trans hi')
      obtain rfl := Option.some.inj (hj.phase.symm.trans hj'.phase)
      rw [hj.unique hj']

theorem lastTickMs_afterJudge (ctx : Ctx) (i : Fin maxRoomPlayers) (conn : Conn)
    (sentenceId : UInt64) (input : Bytes) (nowMs : UInt64) (k : Fin maxPhases)
    (jres : JudgeResult) :
    (afterJudge ctx i conn sentenceId input nowMs k jres).lastTickMs = ctx.lastTickMs := by
  rw [afterJudge]
  split_ifs
  · rw [lastTickMs_issueNextSentence]
    rfl
  · rfl

/-! ### The frame of a submission -/

theorem afterJudge_frame (ctx : Ctx) (i : Fin maxRoomPlayers) (conn : Conn) (sentenceId : UInt64)
    (input : Bytes) (nowMs : UInt64) (k : Fin maxPhases) (jres : JudgeResult) :
    (afterJudge ctx i conn sentenceId input nowMs k jres).room = ctx.room ∧
      ∀ j, j ≠ i →
        (afterJudge ctx i conn sentenceId input nowMs k jres).players j = ctx.players j := by
  rw [afterJudge]
  split_ifs
  · refine ⟨by simp [room_issueNextSentence], fun j hj => ?_⟩
    rw [players_issueNextSentence_of_ne _ _ hj, players_setPlayer_of_ne _ _ hj, players_emit,
      players_emit, players_setPlayer_of_ne _ _ hj]
  · refine ⟨rfl, fun j hj => ?_⟩
    rw [players_emit, players_emit, players_setPlayer_of_ne _ _ hj]

/-- A submission for another sentence is never counted. -/
theorem judgeSubmit_of_ne (target : Sentence) {expectedId submittedId : UInt64} (typed : Bytes)
    (nowMs deadlineMs : UInt64) (lang : Language) (h : submittedId ≠ expectedId) :
    judgeSubmit target expectedId submittedId typed nowMs deadlineMs lang = .error ∨
      judgeSubmit target expectedId submittedId typed nowMs deadlineMs lang = .stale := by
  rw [judgeSubmit]
  split_ifs
  · exact .inl rfl
  · exact .inl rfl
  · exact .inl rfl
  · exact .inr rfl

/-- **A submission touches its player only**, and nobody if the room does not play, the player is
not in the game, or the submission is not for the sentence that is due. -/
theorem submit_isolated (ctx : Ctx) (conn : Conn) (sentenceId : UInt64) (input : Bytes)
    (nowMs : UInt64) :
    let ctx' := (submit ctx conn sentenceId input nowMs).2
    ctx'.room = ctx.room ∧
    (∀ j, findPlayerByConn ctx conn ≠ some j → ctx'.players j = ctx.players j) ∧
    (ctx.room.state ≠ .playing ∨ (∀ i, findPlayerByConn ctx conn = some i →
        sentenceId ≠ (ctx.players i).activeSentenceId ∨ (ctx.players i).activeSentenceId = 0 ∨
          (ctx.players i).connected = false ∨ (ctx.players i).finishStatus ≠ .none) →
      ctx'.players = ctx.players) := by
  intro ctx'
  have hcases : Submitted ctx conn sentenceId input nowMs ctx' :=
    submit_cases ctx conn sentenceId input nowMs
  generalize ctx' = after at hcases ⊢
  cases hcases with
  | ignored evs => exact ⟨rfl, fun _ _ => rfl, fun _ => rfl⟩
  | counted i k target jres hi hj herror hstale =>
      obtain ⟨hroom, hother⟩ :=
        afterJudge_frame ctx i conn sentenceId input (ctx.clock nowMs) k jres
      refine ⟨hroom, fun j hne => hother j fun h => hne (h ▸ hi), fun hnot => ?_⟩
      rcases hnot with hnot | hnot
      · exact absurd hj.playing hnot
      rcases hnot i hi with hid | hzero | hout | hdone
      · have hanswer := judgeSubmit_of_ne target input (ctx.clock nowMs)
          (ctx.players i).sentenceDeadlineMs ctx.room.language hid
        rw [hj.answer] at hanswer
        exact (hanswer.elim herror hstale).elim
      · exact absurd hzero hj.active
      · exact absurd (hout.symm.trans hj.connected) (by simp)
      · exact absurd hj.unfinished hdone

/-! ### Repeated submissions -/

/-- A submission is the text of a buffer, up to its first zero. -/
def Types (typed text : Bytes) : Prop :=
  ∃ len, boundedTextLen text textMaxBytes = some len ∧ typed = text.take len

theorem boundedTextLen_le {text : Bytes} {capacity len : ℕ}
    (h : boundedTextLen text capacity = some len) : len ≤ text.length := by
  rw [boundedTextLen] at h
  split_ifs at h with hzero
  obtain rfl := Option.some.inj h
  calc ((text.take capacity).takeWhile (· ≠ 0)).length
      ≤ (text.take capacity).length := (List.takeWhile_prefix _).length_le
    _ ≤ text.length := List.length_take_le' _ _

/-- **The judge's `CORRECT`.** -/
theorem judgeSubmit_eq_correct_iff (target : Sentence) (expectedId submittedId : UInt64)
    (typed : Bytes) (nowMs deadlineMs : UInt64) (lang : Language) :
    judgeSubmit target expectedId submittedId typed nowMs deadlineMs lang = .correct ↔
      expectedId ≠ 0 ∧ (lang = .en ∨ lang = .ko) ∧ target.id = expectedId ∧
        submittedId = expectedId ∧ nowMs < deadlineMs ∧
        Types typed (if lang = .en then target.enText else target.koText) := by
  rw [judgeSubmit]
  generalize (if lang = .en then target.enText else target.koText) = text
  by_cases hzero : expectedId = 0 ∨ deadlineMs = 0
  · rw [if_pos hzero]
    refine iff_of_false (by simp) ?_
    rintro ⟨hne, -, -, -, hlt, -⟩
    rcases hzero with hzero | hzero
    · exact absurd hzero hne
    · rw [hzero] at hlt
      exact absurd hlt (UInt64.not_lt.mpr (UInt64.zero_le))
  rw [if_neg hzero]
  by_cases hlang : lang ≠ .en ∧ lang ≠ .ko
  · rw [if_pos hlang]
    refine iff_of_false (by simp) ?_
    rintro ⟨-, h, -⟩
    exact h.elim hlang.1 hlang.2
  rw [if_neg hlang]
  by_cases hid : target.id ≠ expectedId
  · rw [if_pos hid]
    refine iff_of_false (by simp) ?_
    rintro ⟨-, -, h, -⟩
    exact hid h
  rw [if_neg hid]
  by_cases hsub : submittedId ≠ expectedId
  · rw [if_pos hsub]
    refine iff_of_false (by simp) ?_
    rintro ⟨-, -, -, h, -⟩
    exact hsub h
  rw [if_neg hsub]
  by_cases hlate : nowMs ≥ deadlineMs
  · rw [if_pos hlate]
    refine iff_of_false (by simp) ?_
    rintro ⟨-, -, -, -, h, -⟩
    exact absurd h (UInt64.not_lt.mpr hlate)
  rw [if_neg hlate]
  -- Every guard has passed, so the answer is that of the comparison of the texts.
  have hguards : (expectedId ≠ 0 ∧ (lang = .en ∨ lang = .ko) ∧ target.id = expectedId ∧
      submittedId = expectedId ∧ nowMs < deadlineMs ∧ Types typed text) ↔ Types typed text :=
    ⟨fun h => h.2.2.2.2.2, fun h => ⟨fun h => hzero (.inl h), by tauto, not_not.mp hid,
      not_not.mp hsub, UInt64.not_le.mp hlate, h⟩⟩
  rw [hguards]
  cases hlen : boundedTextLen text textMaxBytes with
  | none => simp [Types, hlen]
  | some len =>
      have hle := boundedTextLen_le hlen
      simp only [Types, hlen, Option.some.injEq, exists_eq_left']
      split_ifs with hne hnil heq
      · refine iff_of_false (by simp) fun h => hne ?_
        rw [h, List.length_take, Nat.min_eq_left hle]
      · rw [not_not, hnil, List.length_eq_zero_iff] at hne
        simp [hne, hnil]
      · exact iff_of_true rfl heq
      · exact iff_of_false (by simp) heq

/-- A submission is judged correct. -/
def Credited (ctx : Ctx) (i : Fin maxRoomPlayers) (sentenceId : UInt64) (input : Bytes)
    (nowMs : UInt64) : Prop :=
  ∃ k target, Judged ctx i sentenceId input nowMs k target .correct

theorem findPlayerByConn_congr {ctx ctx' : Ctx} (h : ctx'.lobby = ctx.lobby) (conn : Conn) :
    findPlayerByConn ctx' conn = findPlayerByConn ctx conn := by
  have hseat : ∀ p : Player, (p.occupied && decide (p.connPtr = some conn)) =
      p.seat.any fun s => decide (s.conn = some conn) := by
    intro p
    rw [Player.seat]
    cases p.occupied <;> simp
  have hseats : ∀ i, (ctx'.players i).seat = (ctx.players i).seat :=
    fun i => congrFun (congrArg Lobby.seats h) i
  simp only [findPlayerByConn, hseat, hseats]

theorem correctCount_issueNextSentence (ctx : Ctx) (i : Fin maxRoomPlayers) (nowMs : UInt64) :
    ((issueNextSentence ctx i nowMs).players i).correctCount = (ctx.players i).correctCount := by
  obtain ⟨k, sent, -, -, -, heq⟩ | ⟨-, spawn, evs, -, -, heq⟩ := issueNextSentence_cases ctx i nowMs
  · rw [heq, players_emit, players_setPlayer_self]
    rfl
  · rw [heq, players_emit, players_setPlayer_self]
    rfl

theorem correctCount_advanceCursor (p : Player) : p.advanceCursor.correctCount = p.correctCount := by
  rw [Player.advanceCursor]
  split <;> rfl

theorem correctCount_afterJudge (ctx : Ctx) (i : Fin maxRoomPlayers) (conn : Conn)
    (sentenceId : UInt64) (input : Bytes) (nowMs : UInt64) (k : Fin maxPhases)
    (jres : JudgeResult) :
    ((afterJudge ctx i conn sentenceId input nowMs k jres).players i).correctCount =
      if jres = .correct then (ctx.players i).correctCount + 1
      else (ctx.players i).correctCount := by
  have hcredit : ((ctx.players i).judged ctx.room k input jres nowMs).correctCount =
      if jres = .correct then (ctx.players i).correctCount + 1
      else (ctx.players i).correctCount := by
    cases jres <;> rfl
  rw [afterJudge]
  by_cases hadvance : jres = .correct ∨ jres = .expired
  · rw [if_pos hadvance, correctCount_issueNextSentence, players_setPlayer_self,
      correctCount_advanceCursor, hcredit]
  · rw [if_neg hadvance, players_emit, players_emit, players_setPlayer_self, hcredit]

/-- **A submission is credited once**, if it is judged correct. -/
theorem correctCount_submit {ctx : Ctx} {conn : Conn} {i : Fin maxRoomPlayers}
    (hi : findPlayerByConn ctx conn = some i) (sentenceId : UInt64) (input : Bytes)
    (nowMs : UInt64) :
    (Credited ctx i sentenceId input (ctx.clock nowMs) →
      ((submit ctx conn sentenceId input nowMs).2.players i).correctCount =
        (ctx.players i).correctCount + 1) ∧
    (¬ Credited ctx i sentenceId input (ctx.clock nowMs) →
      ((submit ctx conn sentenceId input nowMs).2.players i).correctCount =
        (ctx.players i).correctCount) := by
  have hcases := submit_cases ctx conn sentenceId input nowMs
  generalize (submit ctx conn sentenceId input nowMs).2 = after at hcases ⊢
  cases hcases with
  | ignored evs hplain herror hjudge =>
      refine ⟨fun ⟨k, target, hj⟩ => ?_, fun _ => rfl⟩
      exact absurd (hjudge i k target .correct hi hj) (by simp)
  | counted i' k target jres hi' hj herror hstale =>
      obtain rfl := Option.some.inj (hi.symm.trans hi')
      rw [correctCount_afterJudge]
      constructor
      · rintro ⟨k', target', hj'⟩
        rw [if_pos (hj.unique hj')]
      · intro hnot
        have hne : jres ≠ .correct := by
          rintro rfl
          exact hnot ⟨k, target, hj⟩
        rw [if_neg hne]

/-- After a correct submission the deck deals a sentence with the same number and text, in time
for the same submission again. -/
def Repeats (ctx : Ctx) (i : Fin maxRoomPlayers) (sentenceId : UInt64) (input : Bytes)
    (t₁ t₂ : UInt64) : Prop :=
  Credited ctx i sentenceId input t₁ ∧ ctx.room.HasTime t₁ ∧
    t₂ < t₁ + ctx.room.sentenceTimeoutMs t₁ ∧
    ∃ next, nextSentence ctx (ctx.players i).advanceCursor t₁ = some next ∧
      next.id = sentenceId ∧ Types input (ctx.room.textOf next)

theorem nextSentence_spawn {ctx : Ctx} {p : Player} {nowMs : UInt64} {k : Fin maxPhases}
    {sent : Sentence} (hk : Room.phaseIndex (ctx.room.phaseAt nowMs) = some k)
    (h : nextSentence ctx p nowMs = some sent) :
    (nextSpawn ctx p nowMs).sentenceAt (ctx.room.phaseAt nowMs) (p.phaseCursor k) = some sent := by
  rw [nextSentence, hk] at h
  rw [nextSpawn, hk]
  simp only at h ⊢
  split_ifs at h
  exact h

/-- The second of two equal submissions is judged correct if and only if the deck repeats. -/
theorem credited_again {ctx : Ctx} {conn : Conn} {i : Fin maxRoomPlayers} {sentenceId : UInt64}
    {input : Bytes} {t₁ : UInt64} {k : Fin maxPhases} {target : Sentence}
    (hj : Judged ctx i sentenceId input t₁ k target .correct) (t₂ : UInt64) :
    Credited (afterJudge ctx i conn sentenceId input t₁ k .correct) i sentenceId input t₂ ↔
      Repeats ctx i sentenceId input t₁ t₂ := by
  obtain ⟨hactive, hlang, -, hid, -, -⟩ := (judgeSubmit_eq_correct_iff _ _ _ _ _ _ _).mp hj.answer
  rw [afterJudge, if_pos (.inl rfl)]
  -- The player that is dealt the next sentence has the cursors of the old one, moved on.
  generalize hp : (ctx.players i).judged ctx.room k input .correct t₁ = p
  have hadvance : p.advanceCursor =
      { p with phaseCursor := (ctx.players i).advanceCursor.phaseCursor } := by
    subst hp
    simp [Player.advanceCursor, Player.judged, updatePlayerStats, Player.credit, hj.phase]
  have hkept : p.connected = (ctx.players i).connected ∧
      p.finishStatus = (ctx.players i).finishStatus ∧
      p.awaitingGameEnd = (ctx.players i).awaitingGameEnd := by
    subst hp
    exact ⟨rfl, rfl, rfl⟩
  generalize htold : (((ctx.setPlayer i p).emit
    [⟨some conn, .sentenceResult sentenceId .correct⟩]).emit
    [⟨some conn, scoreUpdate p sentenceId⟩]).setPlayer i p.advanceCursor = told
  have hplayer : told.players i = p.advanceCursor := by rw [← htold, players_setPlayer_self]
  have hroom : told.room = ctx.room := by rw [← htold]; rfl
  have hsame : nextSentence told p.advanceCursor t₁ =
      nextSentence ctx (ctx.players i).advanceCursor t₁ := by rw [← htold, hadvance]; rfl
  obtain ⟨k', next, htime, hk', hnext, heq⟩ | ⟨hnone, spawn, evs, -, -, heq⟩ :=
    issueNextSentence_cases told i t₁
  · have hspawn := nextSentence_spawn hk' hnext
    rw [hroom] at htime hk' hspawn
    rw [hplayer] at hnext hspawn
    rw [heq, hplayer, hroom]
    constructor
    · rintro ⟨k'', next', hj'⟩
      have hphase := hj'.phase
      have hdealt := hj'.dealt
      have hanswer := hj'.answer
      simp only [players_emit, players_setPlayer_self, Player.deal] at hphase hdealt hanswer
      obtain rfl := Option.some.inj (hk'.symm.trans hphase)
      obtain rfl : next = next' := Option.some.inj (hspawn.symm.trans hdealt)
      obtain ⟨-, -, -, hid', hlt, htypes⟩ := (judgeSubmit_eq_correct_iff _ _ _ _ _ _ _).mp hanswer
      rw [hsame] at hnext
      exact ⟨⟨k, target, hj⟩, htime, hlt, next, hnext, hid'.symm, htypes⟩
    · rintro ⟨-, -, hlt, next', hnext', hid', htypes⟩
      obtain rfl := Option.some.inj ((hsame.symm.trans hnext).symm.trans hnext')
      refine ⟨k', next, ?_⟩
      constructor <;> simp only [players_emit, players_setPlayer_self, Player.deal, hadvance]
      · exact hj.playing
      · exact hkept.1.trans hj.connected
      · exact hkept.2.1.trans hj.unfinished
      · exact hkept.2.2.trans hj.playsOn
      · rw [hid', hid]
        exact hactive
      · exact hk'
      · rw [hadvance] at hspawn
        exact hspawn
      · refine (judgeSubmit_eq_correct_iff _ _ _ _ _ _ _).mpr ⟨?_, ?_, rfl, hid'.symm, hlt, ?_⟩
        · rw [hid', hid]
          exact hactive
        · exact hlang
        · exact htypes
  · rw [heq]
    constructor
    · rintro ⟨k', next, hj'⟩
      refine absurd hj'.active ?_
      rw [players_emit, players_setPlayer_self]
      simp [Player.awaitEnd, Player.clearSentence]
    · rintro ⟨-, htime, -, next, hnext, -⟩
      refine absurd ⟨hroom ▸ htime, ?_⟩ hnone
      rw [hplayer, hsame, hnext]
      rfl

/-- **A repeated submission is credited at most once** if and only if the deck does not deal the
same sentence again. -/
theorem replay_credited_iff (ctx : Ctx) (conn : Conn) (sentenceId : UInt64) (input : Bytes)
    (t₁ t₂ : UInt64) (i : Fin maxRoomPlayers) (hi : findPlayerByConn ctx conn = some i) :
    let once := (submit ctx conn sentenceId input t₁).2
    let twice := (submit once conn sentenceId input t₂).2
    ((twice.players i).correctCount = (ctx.players i).correctCount ∨
      (twice.players i).correctCount = (ctx.players i).correctCount + 1) ↔
    ¬ Repeats ctx i sentenceId input (ctx.clock t₁) (ctx.clock t₂) := by
  intro once twice
  have honce := correctCount_submit hi sentenceId input t₁
  have hi' : findPlayerByConn once conn = some i :=
    (findPlayerByConn_congr (lobby_submit ctx conn sentenceId input t₁) conn).trans hi
  have htwice := correctCount_submit hi' sentenceId input t₂
  have hcount : (twice.players i).correctCount = (once.players i).correctCount ∨
      (twice.players i).correctCount = (once.players i).correctCount + 1 := by
    by_cases h : Credited once i sentenceId input (once.clock t₂)
    · exact .inr (htwice.1 h)
    · exact .inl (htwice.2 h)
  by_cases hfirst : Credited ctx i sentenceId input (ctx.clock t₁)
  · obtain ⟨k, target, hj⟩ := hfirst
    have heq : once = afterJudge ctx i conn sentenceId input (ctx.clock t₁) k .correct :=
      submit_of_judged hi hj (by simp) (by simp)
    have hclock : once.clock t₂ = ctx.clock t₂ := by
      rw [Ctx.clock, Ctx.clock, heq, lastTickMs_afterJudge]
    rw [hclock, heq, credited_again hj] at htwice
    rw [← heq, honce.1 ⟨k, target, hj⟩] at htwice
    constructor
    · intro hle hrepeats
      rw [htwice.1 hrepeats, ← UInt32.toNat_inj, ← UInt32.toNat_inj] at hle
      have hlt := (ctx.players i).correctCount.toNat_lt
      simp only [UInt32.toNat_add, UInt32.reduceToNat] at hle
      omega
    · exact fun hnot => .inr (htwice.2 hnot)
  · rw [honce.2 hfirst] at hcount
    exact ⟨fun _ h => hfirst h.1, fun _ => hcount⟩

/-- A sentence with an English and a Korean text. -/
def tinySentence (diff : Fin maxPhases) : Sentence :=
  ⟨UInt64.ofNat diff + 1, 1, 1, 1, [97, 0], [97, 0]⟩

/-- A repository with one sentence for each difficulty. -/
def tinyRepository : Repository := fun _ diff => ([tinySentence diff], true)

/-- Two players, one second of countdown and a game. -/
def tinyGame : List Op :=
  [.join (some 1), .join (some 2), .setLanguage (some 1) .en, .setReady (some 1),
    .setReady (some 2), .prepareStart tinyRepository (some 1), .startGame (some 1) 1,
    .tick 3001]

/-- A wrong submission that is repeated counts for nothing. -/
theorem replay_credited_iff_sample :
    let ctx := run (Ctx.init 1 sampleProfile) tinyGame
    findPlayerByConn ctx 1 = some 0 ∧ ¬ Repeats ctx 0 1 [98] (ctx.clock 3002) (ctx.clock 3003) := by
  have hi : findPlayerByConn (run (Ctx.init 1 sampleProfile) tinyGame) 1 = some 0 := rfl
  exact ⟨hi, (replay_credited_iff _ 1 1 [98] 3002 3003 0 hi).mp (.inl rfl)⟩

/-- One sentence for a difficulty is dealt again and again: the same message counts twice. -/
theorem replay_credited_twice :
    let ctx := run (Ctx.init 1 sampleProfile) tinyGame
    let once := (submit ctx 1 1 [97] 3002).2
    let twice := (submit once 1 1 [97] 3003).2
    ctx.room.state = .playing ∧ findPlayerByConn ctx 1 = some 0 ∧
      (ctx.players 0).correctCount = 0 ∧ (twice.players 0).correctCount = 2 := by
  exact ⟨rfl, rfl, rfl, rfl⟩

end ToosType
