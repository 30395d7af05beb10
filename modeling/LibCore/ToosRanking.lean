import LibCore.Ranking
import LibCore.ToosMoves

/-!
# ToosType: The Final Ranking

At the end of a game the entries of the players are sorted by nested comparisons, and a separate
test says which neighbours share a rank. Both use the same criteria, read as one list of numbers
that is compared from the front.

## Main definitions

* `RankingEntry.criteria`: what an entry is judged by, the most important first.
* `RankingEntry.Better`, `RankingEntry.Ahead`: the order of the entries.

## Main results

* `rankSwap_iff`, `sameRank_iff`: the two tests of the source compare the criteria.
* `final_ranking`: the ranking that is sent at the end of every game.
-/

namespace ToosType

open Ranking

/-! ### The criteria -/

namespace RankingEntry

/-- A player has finished the game or has dropped out. -/
def Settled (e : RankingEntry) : Prop := e.status = .finished ∨ e.status = .dnf

/-- What an entry is judged by: finished or not, the total score, for those who dropped out the
time they have played, the accuracy, the phase score and the words per minute. -/
def criteria (e : RankingEntry) : List ℕ :=
  [if e.status = .finished then 1 else 0, e.totalScore.toNat,
    if e.status = .dnf then e.playedMs.toNat else 0, e.accuracyX100.toNat, e.phaseScore.toNat,
    e.wpm.toNat]

/-- An entry is strictly better than another one, whoever the players are. -/
def Better (e f : RankingEntry) : Prop := f.criteria < e.criteria

instance (e f : RankingEntry) : Decidable (e.Better f) :=
  inferInstanceAs (Decidable (f.criteria < e.criteria))

/-- An entry stands before another one: it is better, or as good with a smaller number. -/
def Ahead (e f : RankingEntry) : Prop :=
  e.Better f ∨ e.criteria = f.criteria ∧ e.playerNo ≤ f.playerNo

/-- An entry without its rank. -/
def unranked (e : RankingEntry) : RankingEntry := { e with rank := 0 }

/-- The key of the sort. -/
def key (e : RankingEntry) : (List ℕ)ᵒᵈ ×ₗ ℕ :=
  toLex (OrderDual.toDual e.criteria, e.playerNo.toNat)

theorem key_lt_iff (e f : RankingEntry) :
    e.key < f.key ↔ e.Better f ∨ e.criteria = f.criteria ∧ e.playerNo < f.playerNo := by
  rw [key, key, Prod.Lex.toLex_lt_toLex, UInt32.lt_iff_toNat_lt]
  rfl

theorem key_le_iff (e f : RankingEntry) : e.key ≤ f.key ↔ e.Ahead f := by
  rw [key, key, Prod.Lex.toLex_le_toLex, Ahead, UInt32.le_iff_toNat_le]
  rfl

end RankingEntry

/-- One criterion of the nested comparisons. -/
theorem compare_iff {α : Type} [LT α] [DecidableEq α] [DecidableLT α] (a b : α) (rest : Bool) :
    (if b > a then true else if b = a then rest else false) = true ↔
      a < b ∨ a = b ∧ rest = true := by
  split_ifs with hlt heq
  · exact iff_of_true rfl (.inl hlt)
  · simp only [heq, true_and]
    exact ⟨.inr, fun h => h.resolve_left (heq ▸ hlt)⟩
  · refine iff_of_false (by simp) ?_
    rintro (h | ⟨rfl, -⟩)
    · exact hlt h
    · exact heq rfl

/-- The last criterion, and the numbers of the players. -/
theorem compareLast_iff (a b m n : UInt32) :
    (if b > a then true else decide (b = a ∧ n < m)) = true ↔ a < b ∨ a = b ∧ n < m := by
  split_ifs with hlt
  · exact iff_of_true rfl (.inl hlt)
  · rw [decide_eq_true_eq, eq_comm]
    exact ⟨.inr, fun h => h.resolve_left hlt⟩

/-- The sort exchanges two entries exactly if the later one stands before the other. -/
theorem rankSwap_iff {e f : RankingEntry} (he : e.Settled) (hf : f.Settled) :
    rankSwap e f = true ↔ f.key < e.key := by
  rw [RankingEntry.key_lt_iff]
  rcases he with he | he <;> rcases hf with hf | hf <;>
    simp only [rankSwap, he, hf, reduceCtorEq, and_self, and_true, and_false,
      if_true, if_false, compare_iff, compareLast_iff, true_iff, false_iff] <;>
    simp only [RankingEntry.Better, RankingEntry.criteria, he, hf, reduceCtorEq, if_true, if_false,
      List.cons_lt_cons_iff, List.cons.injEq, UInt32.lt_iff_toNat_lt, UInt64.lt_iff_toNat_lt,
      ← UInt32.toNat_inj, ← UInt64.toNat_inj, lt_irrefl, and_true, true_and, false_or, and_false,
      or_false, Nat.zero_lt_one, Nat.not_lt_zero, Nat.one_ne_zero, Nat.zero_ne_one, false_and,
      not_false_iff]
  all_goals omega

/-- Two entries share a rank exactly if the criteria agree. -/
theorem sameRank_iff {e f : RankingEntry} (he : e.Settled) (hf : f.Settled) :
    sameRank e f = true ↔ e.criteria = f.criteria := by
  rcases he with he | he <;> rcases hf with hf | hf <;>
    simp only [sameRank, RankingEntry.criteria, he, hf, decide_eq_true_eq, List.cons.injEq,
      ← UInt32.toNat_inj, ← UInt64.toNat_inj, reduceCtorEq, if_true, if_false, and_true, true_and,
      false_and, true_or, false_or, Nat.one_ne_zero, Nat.zero_ne_one]
  · omega
  · omega

/-! ### The sort and the ranks -/

theorem exchangeLoop_eq (e : RankingEntry) (es : List RankingEntry) :
    exchangeLoop e es = select rankSwap e es := by
  induction es generalizing e with
  | nil => rfl
  | cons x es ih =>
      rw [exchangeLoop, select]
      split_ifs
      · rw [ih]
      · rw [ih]

/-- The sort of the source is the exchange sort of the library. -/
theorem sortLoop_eq (n : ℕ) (es : List RankingEntry) :
    sortLoop n es = exchangeSort rankSwap n es := by
  induction n generalizing es with
  | zero => rfl
  | succ n ih =>
      cases es with
      | nil => rfl
      | cons e es =>
          rw [sortLoop, exchangeSort, exchangeLoop_eq]
          exact congrArg ((select rankSwap e es).1 :: ·) (ih _)

/-- The entries are in descending order of the criteria. -/
def Descending (es : List RankingEntry) : Prop :=
  es.Pairwise fun e f => f.criteria ≤ e.criteria

/-- **The loop of the ranks**: behind entries with the criteria `before`, whose last one has its
rank already, every entry gets its rank among all. -/
theorem rankLoop_spec {before : List (List ℕ)} {prev : RankingEntry} {es : List RankingEntry}
    (hprev : prev.Settled) (hes : ∀ e ∈ es, e.Settled) (hdesc : Descending (prev :: es))
    (hbefore : ∀ c ∈ before, prev.criteria ≤ c)
    (hrank : prev.rank.toNat =
      rankOf (before ++ es.map RankingEntry.criteria) prev.criteria)
    (hsize : before.length + es.length < 2 ^ 32) :
    (rankLoop before.length prev es).map RankingEntry.unranked = es.map RankingEntry.unranked ∧
      ∀ e ∈ rankLoop before.length prev es,
        e.rank.toNat = rankOf (before ++ es.map RankingEntry.criteria) e.criteria := by
  induction es generalizing before prev with
  | nil => exact ⟨rfl, by simp [rankLoop]⟩
  | cons e es ih =>
      obtain ⟨hle, hrest⟩ := List.pairwise_cons.mp hdesc
      have he : e.Settled := hes e List.mem_cons_self
      have hleprev : e.criteria ≤ prev.criteria := hle e List.mem_cons_self
      rw [List.length_cons] at hsize
      -- The entry shares the rank of the one before it, or it is worse than all before it.
      have hranked : (if sameRank prev e then prev.rank
          else UInt32.ofNat (before.length + 1)).toNat =
          rankOf (before ++ (e :: es).map RankingEntry.criteria) e.criteria := by
        by_cases hsame : sameRank prev e = true
        · rw [if_pos hsame, hrank, (sameRank_iff hprev he).mp hsame]
        · have hlt : e.criteria < prev.criteria :=
            lt_of_le_of_ne hleprev fun heq => hsame ((sameRank_iff hprev he).mpr heq.symm)
          have hafter : ∀ c ∈ (e :: es).map RankingEntry.criteria, c ≤ e.criteria := by
            intro c hc
            obtain ⟨f, hf, rfl⟩ := List.mem_map.mp hc
            rcases List.mem_cons.mp hf with rfl | hf
            · exact le_rfl
            · exact (List.pairwise_cons.mp hrest).1 f hf
          rw [if_neg hsame, UInt32.toNat_ofNat_of_lt' (by simp only [UInt32.size]; omega)]
          exact (rankOf_append (fun c hc => hlt.trans_le (hbefore c hc)) hafter).symm
      have happend : before ++ (e :: es).map RankingEntry.criteria =
          (before ++ [e.criteria]) ++ es.map RankingEntry.criteria := by simp
      rw [rankLoop]
      generalize (if sameRank prev e then prev.rank
        else UInt32.ofNat (before.length + 1)) = rank at hranked ⊢
      obtain ⟨hsame, hall⟩ := @ih (before ++ [e.criteria]) { e with rank := rank } he
        (fun f hf => hes f (List.mem_cons_of_mem e hf))
        (List.pairwise_cons.mpr ⟨(List.pairwise_cons.mp hrest).1, hrest.of_cons⟩)
        (by
          intro c hc
          rcases List.mem_append.mp hc with hc | hc
          · exact hleprev.trans (hbefore c hc)
          · exact (List.mem_singleton.mp hc).ge)
        (happend ▸ hranked) (by simp only [List.length_append, List.length_singleton]; omega)
      rw [List.length_append, List.length_singleton] at hsame hall
      rw [happend]
      refine ⟨?_, fun f hf => ?_⟩
      · rw [List.map_cons, List.map_cons, hsame]
        rfl
      · rcases List.mem_cons.mp hf with rfl | hf
        · exact happend ▸ hranked
        · exact hall f hf

/-- **The ranks** of sorted entries. -/
theorem assignRanks_spec {es : List RankingEntry} (hes : ∀ e ∈ es, e.Settled)
    (hdesc : Descending es) (hsize : es.length < 2 ^ 32) :
    (assignRanks es).map RankingEntry.unranked = es.map RankingEntry.unranked ∧
      ∀ e ∈ assignRanks es, e.rank.toNat = rankOf (es.map RankingEntry.criteria) e.criteria := by
  cases es with
  | nil => exact ⟨rfl, by simp [assignRanks]⟩
  | cons e es =>
      have he : e.Settled := hes e List.mem_cons_self
      have hfirst : (1 : UInt32).toNat =
          rankOf ([e.criteria] ++ es.map RankingEntry.criteria) e.criteria := by
        refine (@rankOf_append _ _ [] _ e.criteria (by simp) ?_).symm
        intro c hc
        rcases List.mem_cons.mp hc with rfl | hc
        · exact le_rfl
        · obtain ⟨f, hf, rfl⟩ := List.mem_map.mp hc
          exact (List.pairwise_cons.mp hdesc).1 f hf
      obtain ⟨hsame, hall⟩ := @rankLoop_spec [e.criteria] { e with rank := 1 } es he
        (fun f hf => hes f (List.mem_cons_of_mem e hf))
        (List.pairwise_cons.mpr ⟨(List.pairwise_cons.mp hdesc).1, hdesc.of_cons⟩)
        (fun c hc => (List.mem_singleton.mp hc).ge) hfirst
        (by simpa [Nat.add_comm] using hsize)
      refine ⟨?_, fun f hf => ?_⟩
      · rw [assignRanks, List.map_cons, List.map_cons]
        exact congrArg _ hsame
      · rcases List.mem_cons.mp hf with rfl | hf
        · exact hfirst
        · exact hall f hf

/-- The entries of the players, in the order of the slots. -/
def slotEntries (players : Fin maxRoomPlayers → Player) : List RankingEntry :=
  (slots.filter fun i => (players i).occupied).map fun i => rankingEntry (players i)

/-- **The ranking of settled players**: all of them, in order, with their ranks. -/
theorem finalRanking_spec {players : Fin maxRoomPlayers → Player}
    (h : ∀ i, (players i).occupied = true → (players i).finishStatus ≠ .none) :
    let entries := finalRanking players
    (entries.map RankingEntry.unranked).Perm (slotEntries players) ∧
      entries.Pairwise RankingEntry.Ahead ∧
      ∀ e ∈ entries, e.rank.toNat = 1 + entries.countP fun f => decide (f.Better e) := by
  intro entries
  have hsettled : ∀ e ∈ slotEntries players, e.Settled := by
    intro e he
    obtain ⟨i, hi, rfl⟩ := List.mem_map.mp he
    have hne := h i (List.mem_filter.mp hi).2
    rw [RankingEntry.Settled, rankingEntry]
    cases hstatus : (players i).finishStatus with
    | none => exact absurd hstatus hne
    | finished => exact .inl rfl
    | dnf => exact .inr rfl
  have hentries : entries =
      assignRanks (exchangeSort rankSwap (slotEntries players).length (slotEntries players)) :=
    congrArg assignRanks (sortLoop_eq _ _)
  have hperm := exchangeSort_perm rankSwap (slotEntries players).length (slotEntries players)
  have hsorted := exchangeSort_sorted (fun e f he hf => @rankSwap_iff e f he hf) hsettled le_rfl
  generalize exchangeSort rankSwap (slotEntries players).length (slotEntries players) = es
    at hentries hperm hsorted
  have hlength : es.length < 2 ^ 32 := by
    have hle : (slotEntries players).length ≤ maxRoomPlayers := by
      rw [slotEntries, List.length_map]
      exact (List.length_filter_le ..).trans_eq (List.length_finRange ..)
    rw [hperm.length_eq]
    exact hle.trans_lt (by decide)
  have hdesc : Descending es := hsorted.imp fun {e f} hkey => by
    rcases (RankingEntry.key_le_iff e f).mp hkey with hbetter | ⟨heq, -⟩
    · exact le_of_lt hbetter
    · exact heq.ge
  obtain ⟨hsame, hranks⟩ :=
    assignRanks_spec (fun e he => hsettled e (hperm.mem_iff.mp he)) hdesc hlength
  rw [← hentries] at hsame hranks
  have hcriteria : entries.map RankingEntry.criteria = es.map RankingEntry.criteria := by
    have hmap := congrArg (List.map RankingEntry.criteria) hsame
    rwa [List.map_map, List.map_map] at hmap
  refine ⟨?_, ?_, fun e he => ?_⟩
  · have hself : (slotEntries players).map RankingEntry.unranked = slotEntries players := by
      rw [slotEntries, List.map_map]
      rfl
    rw [hsame, ← hself]
    exact hperm.map _
  · have hahead : (es.map RankingEntry.unranked).Pairwise RankingEntry.Ahead :=
      List.pairwise_map.mpr (hsorted.imp fun {e f} hkey => (RankingEntry.key_le_iff e f).mp hkey)
    rw [← hsame, List.pairwise_map] at hahead
    exact hahead
  · rw [hranks e he, ← hcriteria, rankOf, List.countP_map]
    refine congrArg (1 + ·) (List.countP_congr fun f _ => ?_)
    simp only [Function.comp, decide_eq_true_eq]
    exact Iff.rfl

/-! ### The end of the game -/

/-- The player in a slot, if any, has finished or has dropped out. -/
def Done (ctx : Ctx) (i : Fin maxRoomPlayers) : Prop :=
  (ctx.players i).occupied = true → (ctx.players i).finishStatus ≠ .none

/-- Finishing a player settles the slot and leaves the others alone. -/
theorem done_finishPlayer {ctx : Ctx} {i j : Fin maxRoomPlayers} (h : j = i ∨ Done ctx j) :
    Done (finishPlayer ctx i) j := by
  rw [finishPlayer]
  simp only
  by_cases hplays : ((ctx.players i).occupied &&
      decide ((ctx.players i).finishStatus = .none)) = true
  · rw [if_pos hplays, Done]
    by_cases hji : j = i
    · subst hji
      intro _
      simp [Ctx.setPlayer, updatePlayerStats]
    · have hdone : Done ctx j := h.resolve_left hji
      simp only [Ctx.setPlayer, Function.update_of_ne hji]
      split_ifs
      · exact hdone
      · exact hdone
  · rw [if_neg hplays]
    rcases h with rfl | hdone
    · intro hoccupied
      simpa [hoccupied] using hplays
    · exact hdone

theorem done_finishPlayers {ctx : Ctx} {is : List (Fin maxRoomPlayers)} {j : Fin maxRoomPlayers}
    (h : j ∈ is ∨ Done ctx j) : Done (is.foldl finishPlayer ctx) j := by
  induction is generalizing ctx with
  | nil => exact h.resolve_left List.not_mem_nil
  | cons i is ih =>
      refine ih ?_
      rcases h with hmem | hdone
      · rcases List.mem_cons.mp hmem with rfl | hmem
        · exact .inr (done_finishPlayer (.inl rfl))
        · exact .inl hmem
      · exact .inr (done_finishPlayer (.inr hdone))

/-- **The final ranking.** A tick that ends the game, with any scores, statuses and times in the
occupied slots, sends one ranking: it lists every player exactly once, those who have finished
first, then by the total score, for those who dropped out the time played, the accuracy, the
phase score and the words per minute, all descending, and last by the number of the player; and
the rank of an entry is one more than the number of strictly better ones. -/
theorem final_ranking (ctx : Ctx) (nowMs : UInt64)
    (hend : (ctx.room.tick (if nowMs = 0 then ctx.lastTickMs else nowMs)).1 = .gameEnded) :
    let after := tick ctx nowMs
    ∃ log entries config, after.sent = log ++
        [⟨none, .gameOver "NORMAL_END"⟩, ⟨none, .finalRanking entries⟩, config] ∧
      (entries.map RankingEntry.unranked).Perm (slotEntries after.players) ∧
      entries.Pairwise RankingEntry.Ahead ∧
      ∀ e ∈ entries, e.rank.toNat = 1 + entries.countP fun f => decide (f.Better e) := by
  intro after
  let t := if nowMs = 0 then ctx.lastTickMs else nowMs
  let finished := slots.foldl finishPlayer
    { ctx with lastTickMs := t, room := (ctx.room.tick t).2 }
  have hafter : after = emitRoomConfig (emitEvent (emitEvent finished none
      (.gameOver "NORMAL_END")) none (.finalRanking (finalRanking finished.players))) none := by
    simp only [after, tick, finished, t, hend]
  have hdone : ∀ i, Done finished i := fun i => done_finishPlayers (.inl (List.mem_finRange i))
  obtain ⟨hperm, hahead, hranks⟩ := finalRanking_spec hdone
  have hconfig : ∀ ctx : Ctx, ∃ config, (emitRoomConfig ctx none).sent = ctx.sent ++ [config] :=
    fun ctx => ⟨_, rfl⟩
  obtain ⟨config, hsent⟩ := hconfig (emitEvent (emitEvent finished none
    (.gameOver "NORMAL_END")) none (.finalRanking (finalRanking finished.players)))
  refine ⟨finished.sent, finalRanking finished.players, config, ?_, ?_, hahead, hranks⟩
  · rw [hafter, hsent, emitEvent, emitEvent, List.append_assoc, List.append_assoc]
    rfl
  · have hplayers : ∀ ctx target payload, (emitEvent ctx target payload).players = ctx.players :=
      fun _ _ _ => rfl
    rw [hafter, emitRoomConfig, hplayers, hplayers, hplayers]
    exact hperm

/-- A game with two players that have dropped out with the same score, at its last tick. -/
def lastTick : Ctx :=
  let p := { Player.zero with occupied := true, finishStatus := .dnf, totalScore := 7 }
  { Ctx.init 1 sampleProfile with
    room := { Room.init 1 sampleProfile with state := .playing, gameEndMs := 5 }
    players := fun i =>
      if i.val = 0 then { p with playerNo := 1, playedMs := 3 }
      else if i.val = 1 then { p with playerNo := 2, playedMs := 4 }
      else Player.zero }

theorem final_ranking_sample :
    ∃ log entries config, (tick lastTick 5).sent = log ++
        [⟨none, .gameOver "NORMAL_END"⟩, ⟨none, .finalRanking entries⟩, config] ∧
      entries.Pairwise RankingEntry.Ahead ∧
      ∀ e ∈ entries, e.rank.toNat = 1 + entries.countP fun f => decide (f.Better e) := by
  obtain ⟨log, entries, config, hsent, -, hahead, hranks⟩ := final_ranking lastTick 5 rfl
  exact ⟨log, entries, config, hsent, hahead, hranks⟩

end ToosType
