import LibCore.Chunks
import LibCore.ToosSpawn

/-!
# ToosType: The Shared Deck

The sequence of a difficulty grows by an epoch, a shuffle of its sentences, whenever some player
needs more of it than there is. The epochs of a difficulty are the chunks of one stream, which
depends on the seed and the size of the difficulty only; what a deck holds is a prefix of it. So
the sentence at a cursor is a function of the pool, the seed, the difficulty and the cursor,
`deckSentence`, whoever asked for it first.

## Main definitions

* `Extends`: a deck with longer sequences.
* `Streamed`: the sequences of a deck are prefixes of the streams of its seed.
* `deckSentence`: the sentence at a cursor.

## Main results

* `ensureCursor_spec`: what a request for a cursor does to a deck.
* `buildDeck_spec`: a new deck.
* `Streamed.sentenceAt`: a deck deals the sentences of `deckSentence`.
-/

namespace ToosType

namespace SpawnEngine

/-! ### Longer decks -/

/-- A deck with the same pool and longer sequences. -/
structure Extends (e e' : SpawnEngine) : Prop where
  rngState : e'.rngState = e.rngState
  loaded : e'.loaded = e.loaded
  basePool : e'.basePool = e.basePool
  difficultyStart : e'.difficultyStart = e.difficultyStart
  difficultyCount : e'.difficultyCount = e.difficultyCount
  sequence : ∀ i xs, e.sequence i = some xs → ∃ ys, e'.sequence i = some (xs ++ ys)

theorem Extends.refl (e : SpawnEngine) : Extends e e :=
  ⟨rfl, rfl, rfl, rfl, rfl, fun _ xs h => ⟨[], by rw [List.append_nil]; exact h⟩⟩

theorem Extends.trans {e e' e'' : SpawnEngine} (h : Extends e e') (h' : Extends e' e'') :
    Extends e e'' := by
  refine ⟨h'.rngState.trans h.rngState, h'.loaded.trans h.loaded, h'.basePool.trans h.basePool,
    h'.difficultyStart.trans h.difficultyStart, h'.difficultyCount.trans h.difficultyCount, ?_⟩
  intro i xs hxs
  obtain ⟨ys, hys⟩ := h.sequence i xs hxs
  obtain ⟨zs, hzs⟩ := h'.sequence i _ hys
  exact ⟨ys ++ zs, by rw [hzs, List.append_assoc]⟩

/-- **What `sentence_at` finds.** -/
theorem sentenceAt_eq_some_iff (e : SpawnEngine) (difficulty : UInt32) (cursor : UInt64)
    (s : Sentence) :
    e.sentenceAt difficulty cursor = some s ↔
      e.loaded = true ∧ ∃ pool i xs rel, e.basePool = some pool ∧
        Room.phaseIndex difficulty = some i ∧ e.sequence i = some xs ∧
        xs[cursor.toNat]? = some rel ∧ rel < e.difficultyCount i ∧
        pool[(e.difficultyStart i).toNat + rel.toNat]? = some s := by
  rw [SpawnEngine.sentenceAt]
  cases e.loaded with
  | false => simp
  | true =>
      cases e.basePool with
      | none => simp
      | some pool =>
          cases Room.phaseIndex difficulty with
          | none => simp
          | some i =>
              cases hxs : e.sequence i with
              | none => simp [hxs]
              | some xs =>
                  cases hrel : xs[cursor.toNat]? with
                  | none => simp [hxs, hrel]
                  | some rel => simp [hxs, hrel]

/-- The sentences a deck has stay where they are. -/
theorem Extends.sentenceAt {e e' : SpawnEngine} (h : Extends e e') {difficulty : UInt32}
    {cursor : UInt64} {s : Sentence} (hs : e.sentenceAt difficulty cursor = some s) :
    e'.sentenceAt difficulty cursor = some s := by
  rw [sentenceAt_eq_some_iff] at hs ⊢
  obtain ⟨hloaded, pool, i, xs, rel, hpool, hi, hxs, hrel, hlt, hs⟩ := hs
  obtain ⟨ys, hys⟩ := h.sequence i xs hxs
  rw [h.loaded, h.basePool, h.difficultyStart, h.difficultyCount]
  exact ⟨hloaded, pool, i, xs ++ ys, rel, hpool, hi, hys,
    Chunks.getElem?_of_prefix (List.prefix_append xs ys) hrel, hlt, hs⟩

/-! ### Epochs -/

/-- An epoch: the places of a difficulty, shuffled. -/
def epoch (count : ℕ) (state : UInt64) : List UInt32 × UInt64 :=
  shuffleLoop (count - 1) ((List.range count).map UInt32.ofNat) state

theorem length_shuffleLoop (i : ℕ) (xs : List UInt32) (state : UInt64) :
    (shuffleLoop i xs state).1.length = xs.length := by
  induction i generalizing xs state with
  | zero => rfl
  | succ i ih =>
      rw [shuffleLoop, ih]
      simp [swapAt]

theorem length_epoch (count : ℕ) (state : UInt64) : (epoch count state).1.length = count := by
  rw [epoch, length_shuffleLoop, List.length_map, List.length_range]

/-- The first epochs of a difficulty. -/
def epochs (seed : UInt64) (count : UInt32) (i : Fin maxPhases) (m : ℕ) : List UInt32 × UInt64 :=
  Chunks.chunks (epoch count.toNat) (deriveSequenceSeed seed i) m

/-- The sequences of a deck are prefixes of the streams of a seed, and not too long for a
`size_t`. -/
structure Streamed (seed : UInt64) (e : SpawnEngine) : Prop where
  epochs : ∀ i, ∃ m, e.sequence i = some (epochs seed (e.difficultyCount i) i m).1 ∧
    e.sequenceRngState i = (SpawnEngine.epochs seed (e.difficultyCount i) i m).2
  length : ∀ i xs, e.sequence i = some xs → xs.length ≤ sizeMax

/-- **What `append_epoch` does.** -/
theorem appendEpoch_eq_some {e e' : SpawnEngine} {i : Fin maxPhases}
    (h : appendEpoch e i = some e') :
    ∃ xs, e.sequence i = some xs ∧ (e.difficultyCount i).toNat ≠ 0 ∧
      xs.length + (e.difficultyCount i).toNat ≤ sizeMax ∧
      e' = { e with
        sequence := Function.update e.sequence i
          (some (xs ++ (epoch (e.difficultyCount i).toNat (e.sequenceRngState i)).1))
        sequenceRngState := Function.update e.sequenceRngState i
          (epoch (e.difficultyCount i).toNat (e.sequenceRngState i)).2 } := by
  rw [appendEpoch] at h
  simp only at h
  split_ifs at h with hcount
  split at h
  · simp at h
  · rename_i xs hxs
    split_ifs at h with hmax hcapacity
    refine ⟨xs, hxs, hcount, ?_, (Option.some.inj h).symm⟩
    have hle : (e.difficultyCount i).toNat ≤ sizeMax := by
      have := (e.difficultyCount i).toNat_lt
      rw [sizeMax]
      omega
    omega

theorem extends_appendEpoch {e e' : SpawnEngine} {i : Fin maxPhases}
    (h : appendEpoch e i = some e') : Extends e e' := by
  obtain ⟨xs, hxs, -, -, rfl⟩ := appendEpoch_eq_some h
  refine ⟨rfl, rfl, rfl, rfl, rfl, fun j ys hys => ?_⟩
  by_cases hji : j = i
  · subst hji
    obtain rfl := Option.some.inj (hxs.symm.trans hys)
    exact ⟨_, Function.update_self _ _ _⟩
  · exact ⟨[], by simp [Function.update_of_ne hji, hys]⟩

/-- **An epoch is the next chunk of the stream.** -/
theorem Streamed.appendEpoch {seed : UInt64} {e e' : SpawnEngine} {i : Fin maxPhases}
    (hs : Streamed seed e) (h : appendEpoch e i = some e') : Streamed seed e' := by
  obtain ⟨xs, hxs, -, hlen, rfl⟩ := appendEpoch_eq_some h
  refine ⟨fun j => ?_, fun j ys hys => ?_⟩
  · obtain ⟨m, hseq, hrng⟩ := hs.epochs j
    by_cases hji : j = i
    · subst hji
      obtain rfl := Option.some.inj (hxs.symm.trans hseq)
      refine ⟨m + 1, ?_, ?_⟩
      · simp only [Function.update_self, hrng]
        rfl
      · simp only [Function.update_self, hrng]
        rfl
    · refine ⟨m, ?_, ?_⟩
      · simpa only [Function.update_of_ne hji] using hseq
      · simpa only [Function.update_of_ne hji] using hrng
  · by_cases hji : j = i
    · subst hji
      simp only [Function.update_self, Option.some.injEq] at hys
      rw [← hys, List.length_append, length_epoch]
      exact hlen
    · simp only [Function.update_of_ne hji] at hys
      exact hs.length j ys hys

/-! ### Requests for a cursor -/

theorem ensureLoop_spec (i : Fin maxPhases) (needed fuel : ℕ) (e : SpawnEngine) :
    Extends e (ensureLoop i needed fuel e).2 ∧
      ∀ seed, Streamed seed e → Streamed seed (ensureLoop i needed fuel e).2 := by
  induction fuel generalizing e with
  | zero => exact ⟨.refl e, fun _ h => h⟩
  | succ fuel ih =>
      rw [ensureLoop]
      split_ifs
      · cases happend : appendEpoch e i with
        | none => exact ⟨.refl e, fun _ h => h⟩
        | some e' =>
            obtain ⟨hextends, hstreamed⟩ := ih e'
            exact ⟨(extends_appendEpoch happend).trans hextends,
              fun seed h => hstreamed seed (h.appendEpoch happend)⟩
      · exact ⟨.refl e, fun _ h => h⟩

/-- **A request makes the sequences longer** and leaves them prefixes of their streams. -/
theorem ensureCursor_spec (e : SpawnEngine) (difficulty : UInt32) (cursor : UInt64) :
    Extends e (ensureCursor e difficulty cursor).2 ∧
      ∀ seed, Streamed seed e → Streamed seed (ensureCursor e difficulty cursor).2 := by
  have hcapacity : ∀ i needed, Extends e (if needed > e.sequenceCapacity i then
      { e with sequenceCapacity := Function.update e.sequenceCapacity i needed } else e) ∧
      ∀ seed, Streamed seed e → Streamed seed (if needed > e.sequenceCapacity i then
        { e with sequenceCapacity := Function.update e.sequenceCapacity i needed } else e) := by
    intro i needed
    split_ifs
    · refine ⟨⟨rfl, rfl, rfl, rfl, rfl, fun _ xs h => ⟨[], by rw [List.append_nil]; exact h⟩⟩, ?_⟩
      exact fun seed h => ⟨h.epochs, h.length⟩
    · exact ⟨.refl e, fun _ h => h⟩
  have hsame : Extends e e ∧ ∀ seed, Streamed seed e → Streamed seed e := ⟨.refl e, fun _ h => h⟩
  rw [ensureCursor]
  by_cases hloaded : (!e.loaded) = true
  · rw [if_pos hloaded]
    exact hsame
  rw [if_neg hloaded]
  cases hi : Room.phaseIndex difficulty with
  | none => exact hsame
  | some i =>
      by_cases hcount : (e.difficultyCount i).toNat = 0
      · simp only [hcount, if_true]
        exact hsame
      simp only [hcount, if_false]
      cases hsequence : e.sequence i with
      | none => exact hsame
      | some sequence =>
          simp only
          generalize (cursor.toNat / (e.difficultyCount i).toNat + 1) *
            (e.difficultyCount i).toNat = needed
          split
          · exact hsame
          split
          · exact hsame
          split
          · exact hsame
          split
          · exact hsame
          obtain ⟨hextends, hstreamed⟩ := hcapacity i needed
          obtain ⟨hextends', hstreamed'⟩ := ensureLoop_spec i needed needed (if needed >
            e.sequenceCapacity i then { e with
              sequenceCapacity := Function.update e.sequenceCapacity i needed } else e)
          exact ⟨hextends.trans hextends', fun seed h => hstreamed' seed (hstreamed seed h)⟩

/-! ### New decks -/

/-- The sequence of a difficulty after its first epoch. -/
structure Started (seed : UInt64) (e : SpawnEngine) (i : Fin maxPhases) : Prop where
  sequence : e.sequence i = some (epochs seed (e.difficultyCount i) i 1).1
  state : e.sequenceRngState i = (epochs seed (e.difficultyCount i) i 1).2
  length : (e.difficultyCount i).toNat ≤ sizeMax

theorem startSequence_spec {seed : UInt64} {pool : List (Sentence × Fin maxPhases)}
    {e e' : SpawnEngine} {i : Fin maxPhases} (h : startSequence seed pool e i = some e') :
    Started seed e' i ∧ ∀ j, j ≠ i → Started seed e j → Started seed e' j := by
  rw [startSequence] at h
  obtain ⟨xs, hxs, hcount, hlen, rfl⟩ := appendEpoch_eq_some h
  simp only [Function.update_self, Option.some.injEq] at hxs hcount hlen
  subst hxs
  refine ⟨⟨?_, ?_, ?_⟩, fun j hj hstarted => ⟨?_, ?_, ?_⟩⟩
  · simp only [Function.update_self, List.nil_append]
    rfl
  · simp only [Function.update_self]
    rfl
  · simpa only [Function.update_self] using Nat.le_of_add_left_le hlen
  · simpa only [Function.update_of_ne hj] using hstarted.sequence
  · simpa only [Function.update_of_ne hj] using hstarted.state
  · simpa only [Function.update_of_ne hj] using hstarted.length

/-- What a step makes for its difficulty, and keeps for the others, holds for all of them in the end. -/
theorem foldlM_each {step : SpawnEngine → Fin maxPhases → Option SpawnEngine}
    {P : SpawnEngine → Fin maxPhases → Prop}
    (hstep : ∀ e i e', step e i = some e' → P e' i ∧ ∀ j, j ≠ i → P e j → P e' j)
    {e e' : SpawnEngine} {is : List (Fin maxPhases)} (done : List (Fin maxPhases))
    (h : is.foldlM step e = some e') (hdone : ∀ i ∈ done, P e i) : ∀ i, i ∈ done ∨ i ∈ is → P e' i := by
  induction is generalizing e done with
  | nil =>
      obtain rfl := Option.some.inj h
      exact fun i hi => hdone i (by simpa using hi)
  | cons j is ih =>
      rw [List.foldlM_cons, Option.bind_eq_bind, Option.bind_eq_some_iff] at h
      obtain ⟨e₁, hfirst, hrest⟩ := h
      obtain ⟨hmade, hkept⟩ := hstep e j e₁ hfirst
      have hdone₁ : ∀ i ∈ j :: done, P e₁ i := by
        intro i hi
        by_cases hij : i = j
        · rw [hij]
          exact hmade
        · exact hkept i hij (hdone i (by simpa [hij] using hi))
      intro i hi
      refine ih (j :: done) hrest hdone₁ i ?_
      simp only [List.mem_cons] at hi ⊢
      tauto

/-- **What `build_deck` makes.** -/
theorem buildDeck_spec {e e' : SpawnEngine} {db : Repository} {language : Language}
    (h : buildDeck e db language = some e') :
    e.loaded = false ∧ e'.loaded = true ∧ (language = .en ∨ language = .ko) ∧
      Streamed e.rngState e' := by
  rw [buildDeck] at h
  by_cases hloaded : e.loaded = true
  · simp [hloaded] at h
  rw [if_neg hloaded] at h
  split at h
  · simp at h
  split at h
  · simp at h
  by_cases hlang : language ≠ .en ∧ language ≠ .ko
  · simp [hlang] at h
  rw [if_neg hlang] at h
  split at h
  · simp at h
  rename_i c _
  split at h
  · simp at h
  split at h
  · simp at h
  simp only at h
  split at h
  · simp at h
  rename_i temp htemp
  obtain rfl := Option.some.inj h
  have hstarted := foldlM_each (fun _ _ _ => startSequence_spec) [] htemp (by simp)
  refine ⟨by simpa using hloaded, rfl, by tauto, fun i => ?_, fun i xs hxs => ?_⟩
  · have hi := hstarted i (.inr (List.mem_finRange i))
    exact ⟨1, hi.sequence, hi.state⟩
  · have hi := hstarted i (.inr (List.mem_finRange i))
    obtain rfl := Option.some.inj (hi.sequence.symm.trans hxs)
    show ([] ++ (epoch _ _).1).length ≤ _
    rw [List.nil_append, length_epoch]
    exact hi.length

/-! ### The sentence at a cursor -/

/-- The places of a difficulty in the order they are dealt. -/
def placeAt (seed : UInt64) (count : UInt32) (i : Fin maxPhases) (k : ℕ) : Option UInt32 :=
  Chunks.entry (epoch count.toNat) (deriveSequenceSeed seed i) k

/-- **The sentence at a cursor**, from the pool, where the difficulty lies in it, and the seed. -/
def deckSentence (pool : List Sentence) (start count : Fin maxPhases → UInt32) (seed : UInt64)
    (i : Fin maxPhases) (k : ℕ) : Option Sentence :=
  (placeAt seed (count i) i k).bind fun rel => pool[(start i).toNat + rel.toNat]?

/-- A deck deals the sentences of its streams. -/
theorem Streamed.sentenceAt {seed : UInt64} {e : SpawnEngine} (h : Streamed seed e)
    {difficulty : UInt32} {cursor : UInt64} {s : Sentence}
    (hs : e.sentenceAt difficulty cursor = some s) :
    ∃ pool i xs, e.basePool = some pool ∧ Room.phaseIndex difficulty = some i ∧
      e.sequence i = some xs ∧ cursor.toNat < xs.length ∧
      deckSentence pool e.difficultyStart e.difficultyCount seed i cursor.toNat = some s := by
  rw [sentenceAt_eq_some_iff] at hs
  obtain ⟨-, pool, i, xs, rel, hpool, hi, hxs, hrel, hlt, hs⟩ := hs
  refine ⟨pool, i, xs, hpool, hi, hxs, (List.getElem?_eq_some_iff.mp hrel).1, ?_⟩
  obtain ⟨m, hseq, -⟩ := h.epochs i
  obtain rfl := Option.some.inj (hxs.symm.trans hseq)
  -- A difficulty with a place in it has epochs that are not empty.
  have hepoch : ∀ state, (epoch (e.difficultyCount i).toNat state).1 ≠ [] := by
    intro state hnil
    have hzero := length_epoch (e.difficultyCount i).toNat state
    rw [hnil, List.length_nil] at hzero
    rw [UInt32.lt_iff_toNat_lt] at hlt
    omega
  have hplace : placeAt seed (e.difficultyCount i) i cursor.toNat = some rel :=
    Chunks.entry_of_chunks hepoch hrel
  rw [deckSentence, hplace, Option.bind_some, hs]

end SpawnEngine

end ToosType
