import LibCore.ToosDeck
import LibCore.ToosMoves

/-!
# ToosType: The Ledger

Every sentence issued to a player is in the record of the run, and leaves it as a correct answer,
as an expired one, or is still active. The counters, the scores and the cursors of a player say
the same as the record: `Accounted` is that, for one player, and `Books` for a context. The books
are kept move by move. A sentence without a number looks like no sentence at all, so the counters
are right only if the sentences of the deck have one.

The cursor of a phase counts the sentences issued in it, so the `k`-th of them is the `k`-th of the
shared deck, the same for every player.

## Main results

* `Books.move`: moves keep the books.
* `ledger_of_reachable`: the accounts of every player, and no internal error of the judge.
* `deck_fair`: the sentences of a phase are the same for every player.
-/

open CString

namespace ToosType

/-! ### Sums -/

theorem sum_update_succ {n : ℕ} (f w : Fin n → ℕ) (k : Fin n) :
    ∑ j, Function.update f k (f k + 1) j * w j = ∑ j, f j * w j + w k := by
  have hterm : ∀ j, Function.update f k (f k + 1) j * w j =
      f j * w j + if j = k then w k else 0 := by
    intro j
    by_cases hj : j = k
    · rw [hj, Function.update_self, if_pos rfl, Nat.succ_mul]
    · rw [Function.update_of_ne hj, if_neg hj, Nat.add_zero]
  rw [Finset.sum_congr rfl fun j _ => hterm j, Finset.sum_add_distrib,
    Finset.sum_ite_eq' Finset.univ k, if_pos (Finset.mem_univ k)]

/-! ### Accounts -/

/-- The counters of a player that is done with `n` sentences. A counter has 32 bits. -/
def Tallied (p : Player) (profile : Profile) (n : ℕ) : Prop :=
  ∃ (expired : ℕ) (correct : Fin maxPhases → ℕ),
    p.expiredCount = UInt32.ofNat expired ∧ p.correctCount = UInt32.ofNat (∑ k, correct k) ∧
    (∀ k, p.phaseCorrect k = UInt32.ofNat (correct k)) ∧
    p.phaseScore =
      UInt32.ofNat (∑ k, correct k * (profile.phases k).correctScore.toNat) ∧
    expired + ∑ k, correct k = n

theorem Tallied.expire {p p' : Player} {profile : Profile} {n : ℕ} (h : Tallied p profile n)
    (hexpired : p'.expiredCount = p.expiredCount + 1) (hcorrect : p'.correctCount = p.correctCount)
    (hphase : p'.phaseCorrect = p.phaseCorrect) (hscore : p'.phaseScore = p.phaseScore) :
    Tallied p' profile (n + 1) := by
  obtain ⟨expired, correct, h₁, h₂, h₃, h₄, hn⟩ := h
  refine ⟨expired + 1, correct, ?_, hcorrect.trans h₂, fun k => ?_, hscore.trans h₄, by omega⟩
  · rw [hexpired, h₁, UInt32.ofNat_add]
    rfl
  · rw [hphase]
    exact h₃ k

theorem Tallied.credit {p p' : Player} {profile : Profile} {n : ℕ} {k : Fin maxPhases}
    (h : Tallied p profile n) (hexpired : p'.expiredCount = p.expiredCount)
    (hcorrect : p'.correctCount = p.correctCount + 1)
    (hphase : p'.phaseCorrect = Function.update p.phaseCorrect k (p.phaseCorrect k + 1))
    (hscore : p'.phaseScore = p.phaseScore + (profile.phases k).correctScore) :
    Tallied p' profile (n + 1) := by
  obtain ⟨expired, correct, h₁, h₂, h₃, h₄, hn⟩ := h
  have hsum : ∑ j, Function.update correct k (correct k + 1) j = ∑ j, correct j + 1 := by
    have := sum_update_succ correct (fun _ => 1) k
    simpa using this
  refine ⟨expired, Function.update correct k (correct k + 1), hexpired.trans h₁, ?_, fun j => ?_,
    ?_, by omega⟩
  · rw [hcorrect, h₂, hsum, UInt32.ofNat_add]
    rfl
  · rw [hphase]
    by_cases hj : j = k
    · rw [hj, Function.update_self, Function.update_self, h₃, UInt32.ofNat_add]
      rfl
    · rw [Function.update_of_ne hj, Function.update_of_ne hj, h₃]
  · rw [hscore, h₄, sum_update_succ, UInt32.ofNat_add, UInt32.ofNat_toNat]

/-- The sentences issued in a phase. -/
def inPhase (l : List Drop) (k : Fin maxPhases) : List Drop :=
  l.filter fun d => decide (Room.phaseIndex d.phase = some k)

/-- Every sentence of a deck has a number. -/
def Numbered (spawn : SpawnEngine) : Prop :=
  ∀ pool, spawn.basePool = some pool → ∀ s ∈ pool, s.id ≠ 0

/-- The account of a player: the counters, the active sentence and the cursors agree with the
sentences issued, and these are those of the deck. The end of the game takes the last sentence
away and leaves the cursor where it is. -/
structure Accounted (room : Room) (spawn : SpawnEngine) (p : Player) (l : List Drop) : Prop where
  tally : Numbered spawn → ∃ n, Tallied p room.profile n ∧
    l.length = n + if p.activeSentenceId ≠ 0 then 1 else 0
  active : p.activeSentenceId ≠ 0 → ∃ k s, Room.phaseIndex p.activePhase = some k ∧
    spawn.sentenceAt p.activePhase (p.phaseCursor k) = some s ∧ s.id = p.activeSentenceId ∧
    p.sentenceDeadlineMs ≠ 0 ∧ p.sentenceDeadlineMs ≤ room.gameEndMs
  cursor : room.state ≠ .result → ∀ k, (inPhase l k).length = (p.phaseCursor k).toNat +
    if Room.phaseIndex p.activePhase = some k then 1 else 0
  short : ∀ k, (inPhase l k).length ≤ sizeMax
  stream : ∀ k n d, (inPhase l k)[n]? = some d → ∃ pool s, spawn.basePool = some pool ∧
    SpawnEngine.deckSentence pool spawn.difficultyStart spawn.difficultyCount
      room.profile.randomSeed k n = some s ∧ d.id = s.id ∧ d.text = room.textOf s

/-- A player that has played no game. -/
structure Fresh (p : Player) : Prop where
  expired : p.expiredCount = 0
  correct : p.correctCount = 0
  phases : p.phaseCorrect = fun _ => 0
  score : p.phaseScore = 0
  cursor : p.phaseCursor = fun _ => 0
  active : p.activeSentenceId = 0
  phase : p.activePhase = 0

theorem Fresh.zero : Fresh Player.zero := ⟨rfl, rfl, rfl, rfl, rfl, rfl, rfl⟩

theorem Fresh.accounted {p : Player} (h : Fresh p) (room : Room) (spawn : SpawnEngine) :
    Accounted room spawn p [] := by
  refine ⟨fun _ => ⟨0, ⟨0, fun _ => 0, h.expired, ?_, fun k => ?_, ?_, by simp⟩, ?_⟩,
    fun hne => absurd h.active hne, fun _ k => ?_, fun k => Nat.zero_le _, fun k n d hd => ?_⟩
  · rw [h.correct]
    simp
  · rw [h.phases]
    rfl
  · rw [h.score]
    simp
  · simp [h.active]
  · rw [h.cursor, h.phase]
    rfl
  · exact absurd hd (by simp [inPhase])

/-- The same player in a room that has moved on. -/
theorem Accounted.room {room room' : Room} {spawn : SpawnEngine} {p : Player} {l : List Drop}
    (h : Accounted room spawn p l) (hprofile : room'.profile = room.profile)
    (hlang : room'.language = room.language) (hend : room'.gameEndMs = room.gameEndMs)
    (hstate : room.state = .result → room'.state = .result) : Accounted room' spawn p l := by
  have htext : ∀ s, room'.textOf s = room.textOf s := by
    intro s
    rw [Room.textOf, Room.textOf, hlang]
  refine ⟨?_, ?_, fun hs => h.cursor fun hr => hs (hstate hr), h.short, fun k n d hd => ?_⟩
  · rw [hprofile]
    exact h.tally
  · rw [hend]
    exact h.active
  · simp only [hprofile, htext]
    exact h.stream k n d hd

/-- The same player with a longer deck. -/
theorem Accounted.spawn {room : Room} {spawn spawn' : SpawnEngine} {p : Player} {l : List Drop}
    (h : Accounted room spawn p l) (he : SpawnEngine.Extends spawn spawn') :
    Accounted room spawn' p l := by
  refine ⟨fun hnum => h.tally ?_, fun hactive => ?_, h.cursor, h.short, fun k n d hd => ?_⟩
  · rw [Numbered, ← he.basePool]
    exact hnum
  · obtain ⟨k, s, hk, hs, hrest⟩ := h.active hactive
    exact ⟨k, s, hk, he.sentenceAt hs, hrest⟩
  · rw [he.basePool, he.difficultyStart, he.difficultyCount]
    exact h.stream k n d hd

/-- The fields an account reads. -/
structure SameAccount (p p' : Player) : Prop where
  expired : p'.expiredCount = p.expiredCount
  correct : p'.correctCount = p.correctCount
  phases : p'.phaseCorrect = p.phaseCorrect
  score : p'.phaseScore = p.phaseScore
  cursor : p'.phaseCursor = p.phaseCursor
  active : p'.activeSentenceId = p.activeSentenceId
  phase : p'.activePhase = p.activePhase
  deadline : p'.sentenceDeadlineMs = p.sentenceDeadlineMs

theorem SameAccount.fresh {p p' : Player} (h : SameAccount p p') (hf : Fresh p) : Fresh p' :=
  ⟨h.expired.trans hf.expired, h.correct.trans hf.correct, h.phases.trans hf.phases,
    h.score.trans hf.score, h.cursor.trans hf.cursor, h.active.trans hf.active,
    h.phase.trans hf.phase⟩

theorem SameAccount.accounted {room : Room} {spawn : SpawnEngine} {p p' : Player} {l : List Drop}
    (h : SameAccount p p') (ha : Accounted room spawn p l) : Accounted room spawn p' l := by
  refine ⟨fun hnum => ?_, ?_, ?_, ha.short, ha.stream⟩
  · obtain ⟨n, ⟨expired, correct, htally⟩, hlen⟩ := ha.tally hnum
    refine ⟨n, ⟨expired, correct, ?_⟩, ?_⟩
    · rw [h.expired, h.correct, h.phases, h.score]
      exact htally
    · rw [h.active]
      exact hlen
  · rw [h.active, h.phase, h.cursor, h.deadline]
    exact ha.active
  · rw [h.phase, h.cursor]
    exact ha.cursor

/-- A sentence is done with: a counter and the cursor of its phase move on. -/
theorem Accounted.retire {room : Room} {spawn : SpawnEngine} {p : Player} {l : List Drop}
    (h : Accounted room spawn p l) (k : Fin maxPhases) (input : Bytes) {jres : JudgeResult}
    (t : UInt64) (hstate : room.state = .playing) (hjres : jres = .correct ∨ jres = .expired)
    (hactive : p.activeSentenceId ≠ 0)
    (hk : jres = .correct → Room.phaseIndex p.activePhase = some k) :
    Accounted room spawn (p.judged room k input jres t).advanceCursor.clearSentence l := by
  obtain ⟨k', s, hk', -⟩ := h.active hactive
  have hadvance : (p.judged room k input jres t).advanceCursor.clearSentence =
      { p.judged room k input jres t with
        phaseCursor := Function.update p.phaseCursor k' (p.phaseCursor k' + 1)
        activeSentenceId := 0, activePhase := 0, sentenceSpawnMs := 0, sentenceDeadlineMs := 0 } := by
    have hphase : (p.judged room k input jres t).activePhase = p.activePhase := by
      rcases hjres with rfl | rfl <;> rfl
    have hcursor : (p.judged room k input jres t).phaseCursor = p.phaseCursor := by
      rcases hjres with rfl | rfl <;> rfl
    rw [Player.advanceCursor, hphase, hk', hcursor]
    rfl
  rw [hadvance]
  refine ⟨fun hnum => ?_, fun hne => absurd rfl hne, fun _ j => ?_, h.short, h.stream⟩
  · obtain ⟨n, htally, hlen⟩ := h.tally hnum
    rw [if_pos hactive] at hlen
    refine ⟨n + 1, ?_, hlen⟩
    rcases hjres with rfl | rfl
    · exact htally.credit (k := k) rfl rfl rfl rfl
    · exact htally.expire rfl rfl rfl rfl
  · have hold := h.cursor (by simp [hstate]) j
    have hzero : Room.phaseIndex 0 ≠ some j := by simp [Room.phaseIndex]
    show (inPhase l j).length = (Function.update p.phaseCursor k' (p.phaseCursor k' + 1) j).toNat +
      if Room.phaseIndex 0 = some j then 1 else 0
    rw [if_neg hzero, Nat.add_zero, hold]
    by_cases hj : j = k'
    · -- The cursor has room for one more, as the sentence is in the record.
      subst hj
      have hshort := h.short j
      rw [hold, if_pos hk', sizeMax] at hshort
      rw [if_pos hk', Function.update_self, UInt64.toNat_add, UInt64.toNat_one,
        Nat.mod_eq_of_lt (by omega)]
    · rw [Function.update_of_ne hj, if_neg fun heq => hj (Option.some.inj (heq.symm.trans hk')),
        Nat.add_zero]

/-- The end of the game takes the last sentence away. -/
theorem Accounted.finished {room : Room} {spawn : SpawnEngine} {p : Player} {l : List Drop}
    (h : Accounted room spawn p l) (hstate : room.state = .result) :
    Accounted room spawn (p.finished room) l := by
  have hcursor : room.state ≠ .result → ∀ k, (inPhase l k).length =
      ((p.finished room).phaseCursor k).toNat +
        if Room.phaseIndex (p.finished room).activePhase = some k then 1 else 0 :=
    fun hne => absurd hstate hne
  by_cases hactive : p.activeSentenceId = 0
  · have hsame : SameAccount p (p.finished room) := by
      rw [Player.finished]
      simp only [hactive, ne_eq, not_true, false_and, if_false]
      exact ⟨rfl, rfl, rfl, rfl, rfl, hactive.symm, rfl, rfl⟩
    exact hsame.accounted h
  · obtain ⟨k, s, -, -, -, -, hle⟩ := h.active hactive
    have hexpires : p.activeSentenceId ≠ 0 ∧ p.sentenceDeadlineMs ≤ room.gameEndMs := ⟨hactive, hle⟩
    rw [Player.finished] at hcursor ⊢
    simp only [if_pos hexpires] at hcursor ⊢
    refine ⟨fun hnum => ?_, fun hne => absurd rfl hne, hcursor, h.short, h.stream⟩
    obtain ⟨n, htally, hlen⟩ := h.tally hnum
    rw [if_pos hactive] at hlen
    exact ⟨n + 1, htally.expire rfl rfl rfl rfl, hlen⟩

theorem inPhase_append (l : List Drop) (d : Drop) (k : Fin maxPhases) :
    inPhase (l ++ [d]) k =
      inPhase l k ++ if Room.phaseIndex d.phase = some k then [d] else [] := by
  rw [inPhase, inPhase, List.filter_append]
  by_cases h : Room.phaseIndex d.phase = some k
  · rw [if_pos h, List.filter_cons_of_pos (by simpa using h), List.filter_nil]
  · rw [if_neg h, List.filter_cons_of_neg (by simpa using h), List.filter_nil]

/-- A sentence is dealt: it is the next of the stream of its phase. -/
theorem Accounted.deal {room : Room} {spawn : SpawnEngine} {p : Player} {l : List Drop}
    {sent : Sentence} {t : UInt64} {k : Fin maxPhases} (h : Accounted room spawn p l)
    (hstreamed : SpawnEngine.Streamed room.profile.randomSeed spawn)
    (hstate : room.state = .playing) (hclear : p.clearSentence = p) (ht : t ≠ 0)
    (htime : room.HasTime t) (hk : Room.phaseIndex (room.phaseAt t) = some k)
    (hsent : spawn.sentenceAt (room.phaseAt t) (p.phaseCursor k) = some sent) :
    Accounted room spawn (p.deal sent (room.phaseAt t) t (room.sentenceTimeoutMs t))
      (l ++ [⟨room.phaseAt t, sent.id, room.textOf sent⟩]) := by
  obtain ⟨pool, k', xs, hpool, hk', hxs, hlt, hdeck⟩ := hstreamed.sentenceAt hsent
  obtain rfl := Option.some.inj (hk.symm.trans hk')
  have hactive : p.activeSentenceId = 0 := by rw [← hclear]; rfl
  have hphase : p.activePhase = 0 := by rw [← hclear]; rfl
  have hnone : ∀ j, Room.phaseIndex 0 ≠ some j := by simp [Room.phaseIndex]
  have hcursor : ∀ j, (inPhase l j).length = (p.phaseCursor j).toNat := by
    intro j
    rw [h.cursor (by simp [hstate]) j, hphase, if_neg (hnone j), Nat.add_zero]
  -- The deadline is within the game.
  obtain ⟨hbefore, hfits⟩ := htime
  have hdeadline : (t + room.sentenceTimeoutMs t).toNat =
      t.toNat + (room.sentenceTimeoutMs t).toNat ∧
      t.toNat + (room.sentenceTimeoutMs t).toNat ≤ room.gameEndMs.toNat := by
    rw [UInt64.le_iff_toNat_le, UInt64.toNat_sub_of_le _ _ (UInt64.le_of_lt hbefore)] at hfits
    rw [UInt64.lt_iff_toNat_lt] at hbefore
    have := room.gameEndMs.toNat_lt
    rw [UInt64.toNat_add, Nat.mod_eq_of_lt (by omega)]
    omega
  have hne : t.toNat ≠ 0 := fun hzero => ht (UInt64.toNat_inj.mp hzero)
  refine ⟨fun hnum => ?_, fun _ => ⟨k, sent, hk, hsent, rfl, fun hzero => ?_, ?_⟩, fun _ j => ?_,
    fun j => ?_, fun j n d hd => ?_⟩
  · obtain ⟨n, htally, hlen⟩ := h.tally hnum
    obtain ⟨-, pool', i, xs', rel, hpool', -, -, -, -, hget⟩ :=
      (SpawnEngine.sentenceAt_eq_some_iff _ _ _ _).mp hsent
    have hid : sent.id ≠ 0 := hnum pool' hpool' sent (List.mem_of_getElem? hget)
    refine ⟨n, htally, ?_⟩
    rw [hactive, if_neg (by simp)] at hlen
    rw [List.length_append, hlen, List.length_singleton]
    exact congrArg (n + ·) (if_pos hid).symm
  · have hzero' : (t + room.sentenceTimeoutMs t).toNat = 0 := congrArg UInt64.toNat hzero
    omega
  · show t + room.sentenceTimeoutMs t ≤ room.gameEndMs
    rw [UInt64.le_iff_toNat_le]
    omega
  · rw [inPhase_append, List.length_append, hcursor]
    show _ = (p.phaseCursor j).toNat + if Room.phaseIndex (room.phaseAt t) = some j then 1 else 0
    split_ifs <;> rfl
  · rw [inPhase_append, List.length_append]
    have hshort := h.short j
    by_cases hj : Room.phaseIndex (room.phaseAt t) = some j
    · obtain rfl := Option.some.inj (hk.symm.trans hj)
      have hmax := hstreamed.length k xs hxs
      rw [if_pos hj, hcursor, List.length_singleton]
      omega
    · rw [if_neg hj]
      exact hshort
  · rw [inPhase_append] at hd
    by_cases hold : n < (inPhase l j).length
    · rw [List.getElem?_append_left hold] at hd
      exact h.stream j n d hd
    · rw [List.getElem?_append_right (by omega)] at hd
      by_cases hj : Room.phaseIndex (room.phaseAt t) = some j
      · obtain rfl := Option.some.inj (hk.symm.trans hj)
        rw [if_pos hj, List.getElem?_singleton] at hd
        split_ifs at hd with hn
        obtain rfl := Option.some.inj hd
        obtain rfl : n = (p.phaseCursor k).toNat := by
          have := hcursor k
          omega
        exact ⟨pool, sent, hpool, hdeck, rfl, rfl⟩
      · rw [if_neg hj] at hd
        simp at hd

/-! ### Books -/

/-- A deck that is loaded is that of the seed, for a language; one that is not has the seed. -/
structure Decked (room : Room) (spawn : SpawnEngine) : Prop where
  streamed : spawn.loaded = true → SpawnEngine.Streamed room.profile.randomSeed spawn
  language : spawn.loaded = true → room.language ≠ .none
  seed : spawn.loaded = false → spawn.rngState = room.profile.randomSeed

/-- The accounts of all players. The times that are not zero are those a deadline comes from. -/
structure Books (ctx : Ctx) (log : Log) : Prop where
  fresh : ctx.room.state = .waiting ∨ ctx.room.state = .countdown →
    ∀ i, (ctx.players i).occupied = true → Fresh (ctx.players i) ∧ log i = []
  counting : ctx.room.state = .countdown → ctx.room.countdownEndsAtMs ≠ 0
  ticking : ctx.room.state = .playing → ctx.lastTickMs ≠ 0
  decked : Decked ctx.room ctx.spawn
  accounts : ∀ i, (ctx.players i).occupied = true →
    Accounted ctx.room ctx.spawn (ctx.players i) (log i)

section Books

variable {good : Room → UInt64 → Prop} {ctx ctx' : Ctx} {log log' : Log}

/-- Before a game there is nothing in the books. -/
theorem Books.of_idle (hidle : ctx.room.state = .waiting ∨ ctx.room.state = .countdown)
    (hfresh : ∀ i, (ctx.players i).occupied = true → Fresh (ctx.players i) ∧ log i = [])
    (hcounting : ctx.room.state = .countdown → ctx.room.countdownEndsAtMs ≠ 0)
    (hdecked : Decked ctx.room ctx.spawn) : Books ctx log := by
  refine ⟨fun _ => hfresh, hcounting, fun hplaying => ?_, hdecked, fun i hi => ?_⟩
  · rcases hidle with hidle | hidle <;> simp [hidle] at hplaying
  · rw [(hfresh i hi).2]
    exact (hfresh i hi).1.accounted _ _

/-- One player changes. -/
theorem Books.setPlayer (h : Books ctx log) (i : Fin maxRoomPlayers) {p : Player}
    (hp : p.occupied = true → Accounted ctx.room ctx.spawn p (log i))
    (hfresh : ctx.room.state = .waiting ∨ ctx.room.state = .countdown →
      p.occupied = true → Fresh p ∧ log i = []) : Books (ctx.setPlayer i p) log := by
  have hplayer : ∀ j, (ctx.setPlayer i p).players j = if j = i then p else ctx.players j :=
    fun j => Function.update_apply _ _ _ _
  refine ⟨fun hidle j => ?_, h.counting, h.ticking, h.decked, fun j => ?_⟩
  · rw [hplayer]
    split_ifs with hji
    · rw [hji]
      exact hfresh hidle
    · exact h.fresh hidle j
  · rw [hplayer]
    split_ifs with hji
    · rw [hji]
      exact hp
    · exact h.accounts j

/-- One player changes in fields no account reads. -/
theorem Books.same (h : Books ctx log) (i : Fin maxRoomPlayers) {p : Player}
    (hsame : SameAccount (ctx.players i) p) (hocc : p.occupied = (ctx.players i).occupied) :
    Books (ctx.setPlayer i p) log := by
  refine h.setPlayer i (fun hp => ?_) fun hidle hp => ?_
  · rw [hocc] at hp
    exact hsame.accounted (h.accounts i hp)
  · rw [hocc] at hp
    exact ⟨hsame.fresh (h.fresh hidle i hp).1, (h.fresh hidle i hp).2⟩

/-- The deck is extended. -/
theorem Books.spawn (h : Books ctx log) {spawn : SpawnEngine}
    (he : SpawnEngine.Extends ctx.spawn spawn)
    (hs : ∀ seed, SpawnEngine.Streamed seed ctx.spawn → SpawnEngine.Streamed seed spawn) :
    Books { ctx with spawn := spawn } log := by
  refine ⟨h.fresh, h.counting, h.ticking, ⟨?_, ?_, ?_⟩, fun i hi => (h.accounts i hi).spawn he⟩
  · rw [he.loaded]
    exact fun hloaded => hs _ (h.decked.streamed hloaded)
  · rw [he.loaded]
    exact h.decked.language
  · rw [he.loaded, he.rngState]
    exact h.decked.seed

theorem nextSpawn_spec (ctx : Ctx) (p : Player) (t : UInt64) :
    SpawnEngine.Extends ctx.spawn (nextSpawn ctx p t) ∧
      ∀ seed, SpawnEngine.Streamed seed ctx.spawn →
        SpawnEngine.Streamed seed (nextSpawn ctx p t) := by
  rw [nextSpawn]
  cases Room.phaseIndex (ctx.room.phaseAt t) with
  | none => exact ⟨.refl _, fun _ h => h⟩
  | some k => exact SpawnEngine.ensureCursor_spec _ _ _

/-- The clock moves on. -/
theorem Books.pass (h : Books ctx log) {t : UInt64} (ht : t = 0 → ctx.lastTickMs = 0) :
    Books { ctx with lastTickMs := t, room := (ctx.room.tick t).2 } log := by
  obtain ⟨hprofile, hlang⟩ := ctx.room.settings_tick t
  refine ⟨fun hidle => h.fresh (idle_of_tick hidle), fun hstate => ?_, fun hstate hzero => ?_,
    ⟨?_, ?_, ?_⟩, fun i hi => ?_⟩
  · show (ctx.room.tick t).2.countdownEndsAtMs ≠ 0
    change (ctx.room.tick t).2.state = .countdown at hstate
    obtain heq | ⟨-, -, heq⟩ | ⟨-, -, heq⟩ | ⟨hplaying, -, heq⟩ := ctx.room.tick_cases t
    · rw [heq] at hstate ⊢
      exact h.counting hstate
    · rw [heq] at hstate
      obtain ⟨-, -, hs | hs⟩ := ctx.room.tickCountdown_spec t <;> simp [hs] at hstate
    · simp [heq] at hstate
    · simp [heq, hplaying] at hstate
  · change (ctx.room.tick t).2.state = .playing at hstate
    change t = 0 at hzero
    obtain ⟨-, -, hsame | ⟨hold, -⟩ | ⟨-, hnew⟩⟩ := ctx.room.tick_spec t
    · exact h.ticking (hsame ▸ hstate) (ht hzero)
    · obtain heq | ⟨-, hends, -⟩ | ⟨hplaying, -⟩ | ⟨hplaying, -⟩ := ctx.room.tick_cases t
      · simp [heq, hold] at hstate
      · -- The countdown ends at a time that is not zero.
        rw [hzero, UInt64.le_iff_toNat_le] at hends
        refine h.counting hold (UInt64.toNat_inj.mp ?_)
        exact Nat.le_zero.mp hends
      · simp [hold] at hplaying
      · simp [hold] at hplaying
    · simp [hnew] at hstate
  · show ctx.spawn.loaded = true → SpawnEngine.Streamed (ctx.room.tick t).2.profile.randomSeed _
    rw [hprofile]
    exact h.decked.streamed
  · show ctx.spawn.loaded = true → (ctx.room.tick t).2.language ≠ .none
    rw [hlang]
    exact h.decked.language
  · show ctx.spawn.loaded = false → _ = (ctx.room.tick t).2.profile.randomSeed
    rw [hprofile]
    exact h.decked.seed
  · obtain heq | ⟨hcountdown, -, -⟩ | ⟨hplaying, -, heq⟩ | ⟨hplaying, -, heq⟩ :=
      ctx.room.tick_cases t
    · rw [heq]
      exact h.accounts i hi
    · obtain ⟨hfresh, hlog⟩ := h.fresh (.inr hcountdown) i hi
      rw [hlog]
      exact hfresh.accounted _ _
    · refine (h.accounts i hi).room hprofile hlang ?_ ?_
      · rw [heq]
      · rw [heq]
        exact fun _ => rfl
    · refine (h.accounts i hi).room hprofile hlang ?_ ?_
      · rw [heq]
      · simp [hplaying]

theorem SameAccount.droppedOut (p : Player) (room : Room) (t : UInt64) :
    SameAccount p (p.droppedOut room t) := by
  rw [Player.droppedOut]
  by_cases hfinish : p.finishStatus = .none
  · rw [if_pos hfinish]
    exact ⟨rfl, rfl, rfl, rfl, rfl, rfl, rfl, rfl⟩
  · rw [if_neg hfinish]
    exact ⟨rfl, rfl, rfl, rfl, rfl, rfl, rfl, rfl⟩

theorem SameAccount.awaitEnd {p : Player} (h : p.clearSentence = p) : SameAccount p p.awaitEnd := by
  rw [Player.awaitEnd, h]
  exact ⟨rfl, rfl, rfl, rfl, rfl, rfl, rfl, rfl⟩

/-- **Shifts keep the books.** -/
theorem Books.shift (h : Books ctx log) (hshift : Shift good ctx ctx') : Books ctx' log := by
  have hactive : ctx.room.state = .playing ∨ ctx.room.state = .result →
      ¬ (ctx.room.state = .waiting ∨ ctx.room.state = .countdown) := by
    rintro (hs | hs) <;> simp [hs]
  cases hshift with
  | tell evs hplain => exact ⟨h.fresh, h.counting, h.ticking, h.decked, h.accounts⟩
  | book count seq => exact ⟨h.fresh, h.counting, h.ticking, h.decked, h.accounts⟩
  | configure lang locked host hlang =>
      obtain rfl | ⟨hstate, hnone⟩ := hlang
      · refine ⟨h.fresh, h.counting, h.ticking,
          ⟨h.decked.streamed, h.decked.language, h.decked.seed⟩, fun i hi => ?_⟩
        exact (h.accounts i hi).room rfl rfl rfl id
      · refine .of_idle (.inl hstate) (h.fresh (.inl hstate)) h.counting ?_
        exact ⟨h.decked.streamed, fun _ => hnone, h.decked.seed⟩
  | duration minutes room hroom =>
      obtain ⟨hstate, phases, rfl⟩ := Room.setDurationMinutes_eq hroom
      refine .of_idle (.inl hstate) (h.fresh (.inl hstate)) h.counting ?_
      exact ⟨h.decked.streamed, h.decked.language, h.decked.seed⟩
  | vacate i hstate =>
      have hfree : Player.zero.occupied ≠ true := by simp [Player.zero]
      exact h.setPlayer i (fun hp => absurd hp hfree) fun _ hp => absurd hp hfree
  | ready i => exact h.same i ⟨rfl, rfl, rfl, rfl, rfl, rfl, rfl, rfl⟩ rfl
  | load db spawn hstate hspawn =>
      obtain ⟨hfree, hloaded, hlang, hstreamed⟩ := SpawnEngine.buildDeck_spec hspawn
      rw [h.decked.seed hfree] at hstreamed
      refine .of_idle (.inl hstate) (h.fresh (.inl hstate)) h.counting ⟨fun _ => hstreamed, ?_, ?_⟩
      · rintro - hnone
        change ctx.room.language = .none at hnone
        simp [hnone] at hlang
      · exact fun hfree => absurd (hloaded.symm.trans hfree) (by simp)
  | unload hstate =>
      refine .of_idle (.inl hstate) (h.fresh (.inl hstate)) h.counting ⟨?_, ?_, fun _ => rfl⟩
      · exact fun hloaded => absurd hloaded (by simp [resetSpawnEngine, SpawnEngine.init])
      · exact fun hloaded => absurd hloaded (by simp [resetSpawnEngine, SpawnEngine.init])
  | countdown t room ht hloaded hroom =>
      obtain ⟨hstate, deadline, hdeadline, rfl⟩ := Room.startCountdown_eq hroom
      refine .of_idle (.inr rfl) (h.fresh (.inl hstate)) (fun _ hzero => ?_) ?_
      · change deadline = 0 at hzero
        rw [hzero, UInt64.toNat_zero] at hdeadline
        exact ht (UInt64.toNat_inj.mp (by rw [UInt64.toNat_zero]; omega))
      · exact ⟨h.decked.streamed, h.decked.language, h.decked.seed⟩
  | cancel t hstate =>
      have hcancel : ctx.room.cancelCountdown t = { ctx.room with
          state := .waiting, stateStartMs := t, countdownEndsAtMs := 0, gameStartMs := 0,
          gameEndMs := 0, currentPhase := 0 } := by
        rw [Room.cancelCountdown, if_neg (not_not.mpr hstate)]
      rw [hcancel]
      refine .of_idle (.inl rfl) (h.fresh (.inr hstate)) (by simp) ?_
      exact ⟨h.decked.streamed, h.decked.language, h.decked.seed⟩
  | clear t =>
      have hfree : ∀ i, ((resetEmptyRoom ctx t).players i).occupied ≠ true := by
        simp [resetEmptyRoom, resetSpawnEngine, Player.zero]
      refine .of_idle (.inl ?_) (fun i hi => absurd hi (hfree i)) ?_ ⟨?_, ?_, fun _ => ?_⟩
      · simp [resetEmptyRoom, resetSpawnEngine, Room.setDurationMinutes]
      · simp [resetEmptyRoom, resetSpawnEngine, Room.setDurationMinutes]
      · exact fun hloaded =>
          absurd hloaded (by simp [resetEmptyRoom, resetSpawnEngine, SpawnEngine.init])
      · exact fun hloaded =>
          absurd hloaded (by simp [resetEmptyRoom, resetSpawnEngine, SpawnEngine.init])
      · simp [resetEmptyRoom, resetSpawnEngine, Room.setDurationMinutes, SpawnEngine.init]
  | dropOut i t hstate =>
      rw [dropOut_eq]
      exact h.same i (.droppedOut _ _ _) (links_droppedOut _ _ _).2.2
  | pass t ht hgood => exact h.pass ht
  | note i k input t hstate => exact h.same i ⟨rfl, rfl, rfl, rfl, rfl, rfl, rfl, rfl⟩ rfl
  | retire i k input jres t hstate hjres hactive' hk =>
      refine h.setPlayer i (fun hocc => ?_) fun hidle => absurd hidle (hactive (.inl hstate))
      have hseat := (seat_advanceCursor ((ctx.players i).judged ctx.room k input jres t)).trans
        (seat_credit (ctx.players i) ctx.room k input jres)
      have hocc' : (ctx.players i).occupied = true := (seat_congr hseat).1 ▸ hocc
      exact (h.accounts i hocc').retire k input t hstate hjres hactive' hk
  | await i t spawn hstate hclear hspawn =>
      have hspawned : Books { ctx with spawn := spawn } log := by
        rcases hspawn with rfl | rfl
        · exact h
        · exact h.spawn (nextSpawn_spec ctx (ctx.players i) t).1 (nextSpawn_spec ctx _ t).2
      exact hspawned.same i (.awaitEnd hclear) rfl
  | finish i hstate =>
      refine h.setPlayer i (fun hocc => ?_) fun hidle => absurd hidle (hactive (.inr hstate))
      have hocc' : (ctx.players i).occupied = true :=
        (seat_congr (seat_finished (ctx.players i) ctx.room)).1 ▸ hocc
      exact (h.accounts i hocc').finished hstate

/-- A new player has an empty page. -/
theorem Books.seat (h : Books ctx log) (i : Fin maxRoomPlayers) (conn : Conn) (playerNo : UInt32)
    (joinSeq : UInt64) (hstate : ctx.room.state = .waiting) :
    Books (ctx.setPlayer i (newcomer playerNo joinSeq conn)) (Function.update log i []) := by
  refine .of_idle (.inl hstate) (fun j hj => ?_) h.counting h.decked
  by_cases hji : j = i
  · subst hji
    rw [players_setPlayer_self, Function.update_self]
    exact ⟨⟨rfl, rfl, rfl, rfl, rfl, rfl, rfl⟩, rfl⟩
  · rw [players_setPlayer_of_ne _ _ hji] at hj ⊢
    rw [Function.update_of_ne hji]
    exact h.fresh (.inl hstate) j hj

/-- **Moves keep the books.** -/
theorem Books.move (h : Books ctx log) (hmove : Move good ctx log ctx' log') : Books ctx' log' := by
  cases hmove with
  | shift hshift => exact h.shift hshift
  | seat i conn playerNo joinSeq hstate hfree hfresh => exact h.seat i conn playerNo joinSeq hstate
  | deal i t k sent hstate hocc hclear ht htime hk hsent =>
      obtain ⟨hextends, hstreamed⟩ := nextSpawn_spec ctx (ctx.players i) t
      have hspawned : Books _ log := h.spawn hextends hstreamed
      have hdealt := nextSentence_spawn hk hsent
      have hloaded := ((SpawnEngine.sentenceAt_eq_some_iff _ _ _ _).mp hdealt).1
      have hne : t ≠ 0 := fun hzero => h.ticking hstate (ht hzero)
      have haccount := (hspawned.accounts i hocc).deal (hspawned.decked.streamed hloaded) hstate
        hclear hne htime hk hdealt
      refine ⟨fun hidle => ?_, h.counting, h.ticking, hspawned.decked, fun j hj => ?_⟩
      · rcases hidle with hidle | hidle <;> exact absurd (hstate.symm.trans hidle) (by simp)
      · by_cases hji : j = i
        · subst hji
          rw [players_emit, players_setPlayer_self, Function.update_self]
          exact haccount
        · rw [players_emit, players_setPlayer_of_ne _ _ hji] at hj ⊢
          rw [Function.update_of_ne hji]
          exact hspawned.accounts j hj

theorem Books.init (roomId : UInt64) (profile : Profile) (log : Log) :
    Books (Ctx.init roomId profile) log := by
  have hfree : ∀ i, ((Ctx.init roomId profile).players i).occupied ≠ true := by
    simp [Ctx.init, Player.zero]
  refine .of_idle (.inl rfl) (fun i hi => absurd hi (hfree i)) (by simp [Ctx.init, Room.init]) ?_
  exact ⟨by simp [Ctx.init, SpawnEngine.init], by simp [Ctx.init, SpawnEngine.init], fun _ => rfl⟩

/-- **The books of every run.** -/
theorem books_run (roomId : UInt64) (profile : Profile) (ops : List Op) :
    Books (run (Ctx.init roomId profile) ops)
      (logOf (Ctx.init roomId profile) (fun _ => []) ops) := by
  refine (run_moves (P := Books) (fun _ h hmove => h.move hmove) (fun h hlog => ?_) (fun _ => [])
    (goodRun_true _ ops) (.init roomId profile) (.init roomId profile _)).2
  refine ⟨fun hidle i hi => ?_, h.counting, h.ticking, h.decked, fun i hi => ?_⟩
  · rw [hlog i hi]
    exact h.fresh hidle i hi
  · rw [hlog i hi]
    exact h.accounts i hi

end Books

/-! ### The ledger -/

/-- The ledger of a player that was issued a number of sentences. -/
structure Balanced (room : Room) (spawn : SpawnEngine) (p : Player) (issued : ℕ) : Prop where
  /-- The sentences retired, whatever their number. -/
  retired : ∃ expired correct : ℕ, p.expiredCount = UInt32.ofNat expired ∧
    p.correctCount = UInt32.ofNat correct ∧
    correct + expired + (if p.activeSentenceId ≠ 0 then 1 else 0) = issued
  /-- The counters, if they have not wrapped. -/
  counted : issued < 2 ^ 32 → p.correctCount.toNat + p.expiredCount.toNat +
    (if p.activeSentenceId ≠ 0 then 1 else 0) = issued
  phases : issued < 2 ^ 32 → ∑ k, (p.phaseCorrect k).toNat = p.correctCount.toNat
  score : p.phaseScore.toNat =
    (∑ k, (p.phaseCorrect k).toNat * (room.profile.phases k).correctScore.toNat) % 2 ^ 32
  deadline : p.activeSentenceId ≠ 0 → p.sentenceDeadlineMs ≤ room.gameEndMs
  fetched : p.activeSentenceId ≠ 0 → ∃ k s, Room.phaseIndex p.activePhase = some k ∧
    spawn.sentenceAt p.activePhase (p.phaseCursor k) = some s ∧ s.id = p.activeSentenceId

theorem Tallied.phaseScore {p : Player} {profile : Profile} {n : ℕ} (h : Tallied p profile n) :
    p.phaseScore.toNat =
      (∑ k, (p.phaseCorrect k).toNat * (profile.phases k).correctScore.toNat) % 2 ^ 32 := by
  obtain ⟨expired, correct, -, -, hphase, hscore, -⟩ := h
  have hterm : ∀ k, (p.phaseCorrect k).toNat * (profile.phases k).correctScore.toNat % 2 ^ 32 =
      correct k * (profile.phases k).correctScore.toNat % 2 ^ 32 := by
    intro k
    rw [hphase, UInt32.toNat_ofNat', Nat.mod_mul_mod]
  calc p.phaseScore.toNat
      = (∑ k, correct k * (profile.phases k).correctScore.toNat) % 2 ^ 32 := by
        rw [hscore, UInt32.toNat_ofNat']
    _ = (∑ k, correct k * (profile.phases k).correctScore.toNat % 2 ^ 32) % 2 ^ 32 :=
        Finset.sum_nat_mod _ _ _
    _ = (∑ k, (p.phaseCorrect k).toNat * (profile.phases k).correctScore.toNat % 2 ^ 32) %
          2 ^ 32 := by
        rw [Finset.sum_congr rfl fun k _ => hterm k]
    _ = (∑ k, (p.phaseCorrect k).toNat * (profile.phases k).correctScore.toNat) % 2 ^ 32 :=
        (Finset.sum_nat_mod _ _ _).symm

theorem Tallied.exact {p : Player} {profile : Profile} {n : ℕ} (h : Tallied p profile n)
    (hn : n < 2 ^ 32) : p.correctCount.toNat + p.expiredCount.toNat = n ∧
      ∑ k, (p.phaseCorrect k).toNat = p.correctCount.toNat := by
  obtain ⟨expired, correct, hexpired, hcorrect, hphase, -, hsum⟩ := h
  have hsmall : ∀ k, correct k < 2 ^ 32 := by
    intro k
    have := Finset.single_le_sum (fun j _ => Nat.zero_le (correct j)) (Finset.mem_univ k)
    omega
  have htotal : p.correctCount.toNat = ∑ k, correct k := by
    rw [hcorrect, UInt32.toNat_ofNat', Nat.mod_eq_of_lt (by omega)]
  refine ⟨?_, ?_⟩
  · rw [htotal, hexpired, UInt32.toNat_ofNat', Nat.mod_eq_of_lt (by omega)]
    omega
  · rw [htotal]
    refine Finset.sum_congr rfl fun k _ => ?_
    rw [hphase, UInt32.toNat_ofNat', Nat.mod_eq_of_lt (hsmall k)]

/-- An account is a ledger. -/
theorem Accounted.balanced {room : Room} {spawn : SpawnEngine} {p : Player} {l : List Drop}
    (h : Accounted room spawn p l) (hnum : Numbered spawn) : Balanced room spawn p l.length := by
  obtain ⟨n, htally, hlen⟩ := h.tally hnum
  refine ⟨?_, fun hlt => ?_, fun hlt => ?_, htally.phaseScore, fun hactive => ?_, fun hactive => ?_⟩
  · obtain ⟨expired, correct, hexpired, hcorrect, -, -, hsum⟩ := htally
    exact ⟨expired, _, hexpired, hcorrect, by omega⟩
  · rw [(htally.exact (by omega)).1, hlen]
  · exact (htally.exact (by omega)).2
  · obtain ⟨k, s, -, -, -, -, hle⟩ := h.active hactive
    exact hle
  · obtain ⟨k, s, hk, hs, hid, -⟩ := h.active hactive
    exact ⟨k, s, hk, hs, hid⟩

/-! ### The judge -/

/-- Events without an error of the judge. -/
def Faultless (evs : List Event) : Prop :=
  ∀ ev ∈ evs, ev.payload ≠ .error "JUDGE_INTERNAL_ERROR"

theorem Faultless.append {evs evs' : List Event} (h : Faultless evs) (h' : Faultless evs') :
    Faultless (evs ++ evs') := fun ev hev => (List.mem_append.mp hev).elim (h ev) (h' ev)

theorem faultless_issueNextSentence (ctx : Ctx) (i : Fin maxRoomPlayers) (nowMs : UInt64) :
    ∃ evs, (issueNextSentence ctx i nowMs).sent = ctx.sent ++ evs ∧ Faultless evs := by
  have hnone : ∃ evs, ctx.sent = ctx.sent ++ evs ∧ Faultless evs :=
    ⟨[], (List.append_nil _).symm, by simp [Faultless]⟩
  rw [issueNextSentence]
  simp only
  by_cases htime : nowMs ≥ ctx.room.gameEndMs ∨
      ctx.room.gameEndMs - nowMs < ctx.room.sentenceTimeoutMs nowMs
  · rw [if_pos htime]
    exact hnone
  rw [if_neg htime]
  split
  · exact ⟨_, rfl, by simp [Faultless]⟩
  split
  · exact ⟨_, rfl, by simp [Faultless]⟩
  split
  · exact ⟨_, rfl, by simp [Faultless]⟩
  · exact hnone

/-- The judge has no reason for an error if the deck is in order. -/
theorem not_judged_error {ctx : Ctx} {log : Log} (h : Books ctx log)
    (htext : ∀ pool, ctx.spawn.basePool = some pool → ∀ s ∈ pool,
      (boundedTextLen (ctx.room.textOf s) textMaxBytes).isSome)
    {i : Fin maxRoomPlayers} (hocc : (ctx.players i).occupied = true) {sentenceId : UInt64}
    {input : Bytes} {t : UInt64} {k : Fin maxPhases} {target : Sentence} :
    ¬ Judged ctx i sentenceId input t k target .error := by
  intro hj
  obtain ⟨k', s, hk', hs, hid, hdeadline, -⟩ := (h.accounts i hocc).active hj.active
  obtain rfl := Option.some.inj (hj.phase.symm.trans hk')
  obtain rfl := Option.some.inj (hj.dealt.symm.trans hs)
  obtain ⟨hloaded, pool, i', xs, rel, hpool, -, -, -, -, hget⟩ :=
    (SpawnEngine.sentenceAt_eq_some_iff _ _ _ _).mp hs
  obtain ⟨len, hlen⟩ := Option.isSome_iff_exists.mp
    (htext pool hpool target (List.mem_of_getElem? hget))
  rw [Room.textOf] at hlen
  have hlang : ¬ (ctx.room.language ≠ .en ∧ ctx.room.language ≠ .ko) := by
    have hne := h.decked.language hloaded
    cases hl : ctx.room.language <;> simp_all
  have hanswer := hj.answer
  rw [judgeSubmit, if_neg (by simp [hj.active, hdeadline]), if_neg hlang,
    if_neg (not_not.mpr hid)] at hanswer
  simp only [hlen] at hanswer
  split_ifs at hanswer

/-- **The ledger of every player in every state of every run**, if the sentences of the deck have
numbers and texts that end; and a submission never ends in an error of the judge. -/
theorem ledger_of_reachable (roomId : UInt64) (profile : Profile) (ops : List Op)
    (hdeck : ∀ pool, (run (Ctx.init roomId profile) ops).spawn.basePool = some pool →
      ∀ s ∈ pool, s.id ≠ 0 ∧ (boundedTextLen
        ((run (Ctx.init roomId profile) ops).room.textOf s) textMaxBytes).isSome) :
    let ctx := run (Ctx.init roomId profile) ops
    let log := logOf (Ctx.init roomId profile) (fun _ => []) ops
    (∀ i, (ctx.players i).occupied = true →
      Balanced ctx.room ctx.spawn (ctx.players i) (log i).length) ∧
    ∀ conn sentenceId input nowMs,
      ∀ ev ∈ (submit ctx conn sentenceId input nowMs).2.sent.drop ctx.sent.length,
        ev.payload ≠ .error "JUDGE_INTERNAL_ERROR" := by
  intro ctx log
  have h : Books ctx log := books_run roomId profile ops
  refine ⟨fun i hi => ?_, fun conn sentenceId input nowMs => ?_⟩
  · exact (h.accounts i hi).balanced fun pool hpool s hs => (hdeck pool hpool s hs).1
  have hcases := submit_cases ctx conn sentenceId input nowMs
  generalize (submit ctx conn sentenceId input nowMs).2 = after at hcases
  cases hcases with
  | ignored evs hplain herror hjudge =>
      have hsent : (ctx.emit evs).sent = ctx.sent ++ evs := rfl
      rw [hsent, List.drop_left]
      intro ev hev hbad
      obtain ⟨i, k, target, hi, hj⟩ := herror ev hev hbad
      have hocc := (seat_eq_some (findPlayerByConn_eq_some hi)).1
      exact not_judged_error h (fun pool hpool s hs => (hdeck pool hpool s hs).2) hocc hj
  | counted i k target jres hi hj herror hstale =>
      rw [afterJudge]
      by_cases hadvance : jres = .correct ∨ jres = .expired
      · rw [if_pos hadvance, emit_emit]
        obtain ⟨evs, hevs, hfaultless⟩ := faultless_issueNextSentence
          (((ctx.setPlayer i ((ctx.players i).judged ctx.room k input jres (ctx.clock nowMs))).emit
            ([⟨some conn, .sentenceResult sentenceId jres⟩] ++ [⟨some conn, scoreUpdate
              ((ctx.players i).judged ctx.room k input jres (ctx.clock nowMs)) sentenceId⟩])).setPlayer
            i ((ctx.players i).judged ctx.room k input jres (ctx.clock nowMs)).advanceCursor) i
          (ctx.clock nowMs)
        rw [hevs]
        show Faultless (List.drop _ (ctx.sent ++ _ ++ evs))
        rw [List.append_assoc, List.drop_left]
        exact Faultless.append (by simp [Faultless, scoreUpdate]) hfaultless
      · rw [if_neg hadvance, emit_emit]
        show Faultless (List.drop _ (ctx.sent ++ _))
        rw [List.drop_left]
        simp [Faultless, scoreUpdate]

/-- A correct answer, and the next sentence. -/
theorem ledger_of_reachable_sample :
    let ops := tinyGame ++ [.submit (some 1) 1 [97] 3002]
    let ctx := run (Ctx.init 1 sampleProfile) ops
    (logOf (Ctx.init 1 sampleProfile) (fun _ => []) ops 0).length = 2 ∧
      (ctx.players 0).correctCount = 1 ∧
      Balanced ctx.room ctx.spawn (ctx.players 0) 2 := by
  intro ops ctx
  have hpool : ctx.spawn.basePool = some [tinySentence 0, tinySentence 1, tinySentence 2] := rfl
  have hdeck : ∀ pool, ctx.spawn.basePool = some pool → ∀ s ∈ pool,
      s.id ≠ 0 ∧ (boundedTextLen (ctx.room.textOf s) textMaxBytes).isSome := by
    intro pool h s hs
    obtain rfl := Option.some.inj (hpool.symm.trans h)
    simp only [List.mem_cons, List.not_mem_nil, or_false] at hs
    rcases hs with rfl | rfl | rfl
    · exact ⟨by decide, rfl⟩
    · exact ⟨by decide, rfl⟩
    · exact ⟨by decide, rfl⟩
  exact ⟨rfl, rfl, (ledger_of_reachable 1 sampleProfile ops hdeck).1 0 rfl⟩

/-! ### The same sentences for everybody -/

/-- A deck after requests for cursors. -/
def SpawnEngine.ensureAll (engine : SpawnEngine) (requests : List (UInt32 × UInt64)) :
    SpawnEngine :=
  requests.foldl (fun e r => (e.ensureCursor r.1 r.2).2) engine

theorem SpawnEngine.ensureAll_spec (engine : SpawnEngine) (requests : List (UInt32 × UInt64)) :
    Extends engine (engine.ensureAll requests) ∧
      ∀ seed, Streamed seed engine → Streamed seed (engine.ensureAll requests) := by
  induction requests generalizing engine with
  | nil => exact ⟨.refl _, fun _ h => h⟩
  | cons r requests ih =>
      obtain ⟨hextends, hstreamed⟩ := engine.ensureCursor_spec r.1 r.2
      obtain ⟨hextends', hstreamed'⟩ := ih (engine.ensureCursor r.1 r.2).2
      exact ⟨hextends.trans hextends', fun seed h => hstreamed' seed (hstreamed seed h)⟩

theorem phaseIndex_inj {phase phase' : UInt32} {k : Fin maxPhases}
    (h : Room.phaseIndex phase = some k) (h' : Room.phaseIndex phase' = some k) :
    phase = phase' := by
  rw [Room.phaseIndex] at h h'
  split_ifs at h h' with hrange hrange'
  have hk := congrArg Fin.val (Option.some.inj h)
  have hk' := congrArg Fin.val (Option.some.inj h')
  simp only at hk hk'
  exact UInt32.toNat_inj.mp (by omega)

theorem phase_of_inPhase {l : List Drop} {k : Fin maxPhases} {n : ℕ} {d : Drop}
    (h : (inPhase l k)[n]? = some d) : Room.phaseIndex d.phase = some k := by
  have hmem := List.mem_of_getElem? h
  rw [inPhase, List.mem_filter] at hmem
  simpa using hmem.2

/-- **The deck is fair.** Whatever cursors are asked for and in whatever order, a deck keeps the
beginnings of its sequences, and the sentence at a cursor is that of the pool, the seed, the
difficulty and the cursor. In every state of every run, so are the sentences issued to a player in
a phase: the `n`-th is the same for every player. -/
theorem deck_fair :
    (∀ (engine spawn : SpawnEngine) (db : Repository) (language : Language),
      engine.buildDeck db language = some spawn → ∀ requests : List (UInt32 × UInt64),
      (∀ i xs, spawn.sequence i = some xs →
        ∃ ys, (spawn.ensureAll requests).sequence i = some (xs ++ ys)) ∧
      ∀ difficulty cursor s, (spawn.ensureAll requests).sentenceAt difficulty cursor = some s →
        ∃ pool k, spawn.basePool = some pool ∧ Room.phaseIndex difficulty = some k ∧
          SpawnEngine.deckSentence pool spawn.difficultyStart spawn.difficultyCount
            engine.rngState k cursor.toNat = some s) ∧
    ∀ (roomId : UInt64) (profile : Profile) (ops : List Op),
      let ctx := run (Ctx.init roomId profile) ops
      let log := logOf (Ctx.init roomId profile) (fun _ => []) ops
      (∀ i k (n : ℕ) d, (ctx.players i).occupied = true → (inPhase (log i) k)[n]? = some d →
        ∃ pool s, ctx.spawn.basePool = some pool ∧
          SpawnEngine.deckSentence pool ctx.spawn.difficultyStart ctx.spawn.difficultyCount
            ctx.room.profile.randomSeed k n = some s ∧ d.id = s.id ∧ d.text = ctx.room.textOf s) ∧
      ∀ i j k (n : ℕ) d d', (ctx.players i).occupied = true → (ctx.players j).occupied = true →
        (inPhase (log i) k)[n]? = some d → (inPhase (log j) k)[n]? = some d' → d = d' := by
  refine ⟨fun engine spawn db language hbuild requests => ?_, fun roomId profile ops => ?_⟩
  · obtain ⟨-, -, -, hnew⟩ := SpawnEngine.buildDeck_spec hbuild
    obtain ⟨hextends, hstreamed⟩ := spawn.ensureAll_spec requests
    refine ⟨hextends.sequence, fun difficulty cursor s hs => ?_⟩
    obtain ⟨pool, k, xs, hpool, hk, -, -, hdeck⟩ := (hstreamed _ hnew).sentenceAt hs
    rw [hextends.basePool] at hpool
    rw [hextends.difficultyStart, hextends.difficultyCount] at hdeck
    exact ⟨pool, k, hpool, hk, hdeck⟩
  · intro ctx log
    have h : Books ctx log := books_run roomId profile ops
    refine ⟨fun i k n d hi hd => (h.accounts i hi).stream k n d hd, ?_⟩
    intro i j k n d d' hi hj hd hd'
    obtain ⟨pool, s, hpool, hdeck, hid, htext⟩ := (h.accounts i hi).stream k n d hd
    obtain ⟨pool', s', hpool', hdeck', hid', htext'⟩ := (h.accounts j hj).stream k n d' hd'
    obtain rfl := Option.some.inj (hpool.symm.trans hpool')
    obtain rfl := Option.some.inj (hdeck.symm.trans hdeck')
    have hphase : d.phase = d'.phase := phaseIndex_inj (phase_of_inPhase hd) (phase_of_inPhase hd')
    cases d
    cases d'
    simp only [Drop.mk.injEq]
    exact ⟨hphase, hid.trans hid'.symm, htext.trans htext'.symm⟩

/-- Two players, one of whom has answered. -/
theorem deck_fair_sample :
    let ops := tinyGame ++ [.submit (some 1) 1 [97] 3002]
    let log := logOf (Ctx.init 1 sampleProfile) (fun _ => []) ops
    (log 0).length = 2 ∧ (log 1).length = 1 ∧
      ∃ d, (inPhase (log 0) 0)[0]? = some d ∧ (inPhase (log 1) 0)[0]? = some d := by
  intro ops log
  obtain ⟨d, hd⟩ : ∃ d, (inPhase (log 0) 0)[0]? = some d := ⟨_, rfl⟩
  obtain ⟨d', hd'⟩ : ∃ d', (inPhase (log 1) 0)[0]? = some d' := ⟨_, rfl⟩
  refine ⟨rfl, rfl, d, hd, ?_⟩
  rw [(deck_fair.2 1 sampleProfile ops).2 0 1 0 0 d d' rfl rfl hd hd']
  exact hd'

end ToosType
