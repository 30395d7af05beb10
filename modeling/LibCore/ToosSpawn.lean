import LibCore.ToosRoom

/-!
# ToosType: Sentences

`toos_type_sentence.h`, `toos_type_judge.c` and `toos_type_spawn.c`: the sentences players
type, the judge of what they typed, and the deck sentences are dealt from. The repository is a
database outside this program; here it is a function that gives the rows it would visit, and
whether the visit ends well. Allocation succeeds.

A generator of random numbers has `2 ^ 64` states, so a loop that draws from it until a number
fits has ended after that many rounds or never does.

## Main definitions

* `judgeSubmit`, `countChars`: the judge.
* `boundedRand`, `boundedRand64`: random numbers below a bound.
* `SpawnEngine`, `buildDeck`, `ensureCursor`, `sentenceAt`: the deck.
-/

open CString

namespace ToosType

/-- `ToosTypeSentence`. A text is the content of its buffer. -/
structure Sentence where
  id : UInt64
  categoryId : UInt64
  difficultyKo : UInt8
  difficultyEn : UInt8
  koText : Bytes
  enText : Bytes
deriving DecidableEq

/-- A sentence of zeros. -/
def Sentence.zero : Sentence := ⟨0, 0, 0, 0, [], []⟩

/-! ### The judge -/

/-- `TOOS_TYPE_TEXT_MAX_BYTES`. -/
def textMaxBytes : ℕ := 512

/-- `ToosTypeJudgeResult`. -/
inductive JudgeResult
  | correct
  | incorrect
  | expired
  | stale
  | error
deriving DecidableEq

/-- `bounded_text_len`. -/
def boundedTextLen (text : Bytes) (capacity : ℕ) : Option ℕ :=
  let len := ((text.take capacity).takeWhile (· ≠ 0)).length
  if (text.take capacity)[len]? = some 0 then some len else none

/-- `ToosTypeJudge_submit`, on the `typed_len` bytes at `typed_text`. -/
def judgeSubmit (target : Sentence) (expectedId submittedId : UInt64) (typed : Bytes)
    (nowMs deadlineMs : UInt64) (lang : Language) : JudgeResult :=
  if expectedId = 0 ∨ deadlineMs = 0 then .error
  else if lang ≠ .en ∧ lang ≠ .ko then .error
  else if target.id ≠ expectedId then .error
  else if submittedId ≠ expectedId then .stale
  else if nowMs ≥ deadlineMs then .expired
  else
    let expected := if lang = .en then target.enText else target.koText
    match boundedTextLen expected textMaxBytes with
    | none => .error
    | some expectedLen =>
        if typed.length ≠ expectedLen then .incorrect
        else if expectedLen = 0 then .correct
        else if typed = expected.take expectedLen then .correct
        else .incorrect

/-- The loop of `ToosTypeJudge_count_chars`. -/
def countCharsLoop : UInt32 → Bytes → UInt32
  | count, [] => count
  | count, c :: s =>
      if c &&& 0xC0 ≠ 0x80 then
        if count = uint32Max then uint32Max else countCharsLoop (count + 1) s
      else countCharsLoop count s

/-- `ToosTypeJudge_count_chars`. -/
def countChars (text : Bytes) (lang : Language) : UInt32 :=
  if text = [] then 0 else if lang ≠ .en ∧ lang ≠ .ko then 0 else countCharsLoop 0 text

/-! ### Random numbers -/

/-- One step of the linear congruential generator. -/
def lcgNext (state : UInt64) : UInt64 := state * 6364136223846793005 + 1442695040888963407

/-- `local_rand_next`: the upper half of the next state. -/
def localRandNext (state : UInt64) : UInt32 × UInt64 :=
  ((lcgNext state >>> 32).toUInt32, lcgNext state)

/-- The loop of `bounded_rand`. -/
def randLoop (threshold : UInt32) : ℕ → UInt64 → UInt32 × UInt64
  | 0, state => (0, state)
  | fuel + 1, state =>
      if (localRandNext state).1 < threshold then randLoop threshold fuel (localRandNext state).2
      else localRandNext state

/-- `bounded_rand`. -/
def boundedRand (state : UInt64) (bound : UInt32) : UInt32 × UInt64 :=
  if bound = 0 ∨ bound = 1 then (0, state)
  else
    let (r, state) := randLoop ((0 - bound) % bound) (2 ^ 64) state
    (r % bound, state)

/-- The loop of `bounded_rand64`. -/
def randLoop64 (threshold : UInt64) : ℕ → UInt64 → UInt64 × UInt64
  | 0, state => (0, state)
  | fuel + 1, state =>
      if lcgNext state < threshold then randLoop64 threshold fuel (lcgNext state)
      else (lcgNext state, lcgNext state)

/-- `bounded_rand64`. -/
def boundedRand64 (state bound : UInt64) : UInt64 × UInt64 :=
  if bound = 0 ∨ bound = 1 then (0, state)
  else
    let (r, state) := randLoop64 ((0 - bound) % bound) (2 ^ 64) state
    (r % bound, state)

/-- `derive_sequence_seed`. -/
def deriveSequenceSeed (seed : UInt64) (diffIndex : Fin maxPhases) : UInt64 :=
  let z := seed + 0x9E3779B97F4A7C15 * (UInt64.ofNat diffIndex + 1)
  let z := (z ^^^ (z >>> 30)) * 0xBF58476D1CE4E5B9
  let z := (z ^^^ (z >>> 27)) * 0x94D049BB133111EB
  let z := z ^^^ (z >>> 31)
  if z = 0 then 0x9E3779B97F4A7C15 else z

/-! ### The deck -/

/-- `SIZE_MAX`. -/
def sizeMax : ℕ := 2 ^ 64 - 1

/-- `TOOS_TYPE_MAX_POOL_SIZE`. -/
def maxPoolSize : ℕ := 1000

/-- `ToosTypeSpawnEngine`. A pointer is `none` for `NULL`; `base_count` and `sequence_count` are
the lengths of the lists. -/
structure SpawnEngine where
  rngState : UInt64
  sequenceRngState : Fin maxPhases → UInt64
  loaded : Bool
  basePool : Option (List Sentence)
  difficultyStart : Fin maxPhases → UInt32
  difficultyCount : Fin maxPhases → UInt32
  sequence : Fin maxPhases → Option (List UInt32)
  sequenceCapacity : Fin maxPhases → ℕ

/-- The rows the repository visits for a language and a difficulty, and whether the visit ends
without an error. -/
abbrev Repository := Language → Fin maxPhases → List Sentence × Bool

namespace SpawnEngine

/-- `ToosTypeSpawnEngine_init`. -/
def init (seed : UInt64) : SpawnEngine where
  rngState := seed
  sequenceRngState := fun _ => 0
  loaded := false
  basePool := none
  difficultyStart := fun _ => 0
  difficultyCount := fun _ => 0
  sequence := fun _ => none
  sequenceCapacity := fun _ => 0

/-- `ReservoirCollector`: the sentences of the pool with the index of their difficulty. -/
structure Collector where
  pool : List (Sentence × Fin maxPhases)
  seenCount : UInt64
  rngState : UInt64

/-- `pool_collect_callback`. -/
def poolCollect (diff : Fin maxPhases) (sentence : Sentence) (c : Collector) : Option Collector :=
  if c.seenCount = uint64Max then none
  else
    let seen := c.seenCount + 1
    if c.pool.length < maxPoolSize then
      some { c with pool := c.pool ++ [(sentence, diff)], seenCount := seen }
    else
      let (j, rng) := boundedRand64 c.rngState seen
      if j.toNat ≥ maxPoolSize then some { c with seenCount := seen, rngState := rng }
      else some ⟨c.pool.set j.toNat (sentence, diff), seen, rng⟩

/-- `toos_type_sentence_visit_by_difficulty` with that callback. -/
def visitByDifficulty (db : Repository) (language : Language) (diff : Fin maxPhases)
    (c : Collector) : Option Collector :=
  match (db language diff).1.foldlM (fun c s => poolCollect diff s c) c with
  | none => none
  | some c => if (db language diff).2 then some c else none

/-- The number of sentences of a difficulty in the pool. -/
def countOf (pool : List (Sentence × Fin maxPhases)) (diff : Fin maxPhases) : UInt32 :=
  UInt32.ofNat (pool.countP fun s => s.2 = diff)

/-- Where the sentences of a difficulty start in the grouped pool. -/
def startOf (pool : List (Sentence × Fin maxPhases)) (diff : Fin maxPhases) : UInt32 :=
  ((List.finRange maxPhases).filter (· < diff)).foldl (fun start d => start + countOf pool d) 0

/-- The loop that moves the pool into groups, with the next position of each group. -/
def groupLoop : List (Sentence × Fin maxPhases) → (Fin maxPhases → UInt32) → List Sentence →
    List Sentence
  | [], _, grouped => grouped
  | (s, d) :: pool, writePos, grouped =>
      groupLoop pool (Function.update writePos d (writePos d + 1))
        (grouped.set (writePos d).toNat s)

/-- Exchange two elements. -/
def swapAt (xs : List UInt32) (i j : ℕ) : List UInt32 :=
  (xs.set i (xs.getD j 0)).set j (xs.getD i 0)

/-- The Fisher-Yates loop, down from position `i`. -/
def shuffleLoop : ℕ → List UInt32 → UInt64 → List UInt32 × UInt64
  | 0, xs, state => (xs, state)
  | i + 1, xs, state =>
      let (j, state) := boundedRand state (UInt32.ofNat (i + 2))
      shuffleLoop i (swapAt xs (i + 1) j.toNat) state

/-- `append_epoch`: `none` for `false`. -/
def appendEpoch (engine : SpawnEngine) (i : Fin maxPhases) : Option SpawnEngine :=
  let count := (engine.difficultyCount i).toNat
  if count = 0 then none
  else
    match engine.sequence i with
    | none => none
    | some sequence =>
        if sequence.length > sizeMax - count then none
        else if sequence.length + count > engine.sequenceCapacity i then none
        else
          let (epoch, rng) := shuffleLoop (count - 1) ((List.range count).map UInt32.ofNat)
            (engine.sequenceRngState i)
          some { engine with
            sequence := Function.update engine.sequence i (some (sequence ++ epoch))
            sequenceRngState := Function.update engine.sequenceRngState i rng }

/-- The sequence of one difficulty of a new deck. -/
def startSequence (baseSeed : UInt64) (pool : List (Sentence × Fin maxPhases))
    (engine : SpawnEngine) (i : Fin maxPhases) : Option SpawnEngine :=
  appendEpoch { engine with
    sequenceRngState := Function.update engine.sequenceRngState i (deriveSequenceSeed baseSeed i)
    difficultyStart := Function.update engine.difficultyStart i (startOf pool i)
    difficultyCount := Function.update engine.difficultyCount i (countOf pool i)
    sequence := Function.update engine.sequence i (some [])
    sequenceCapacity := Function.update engine.sequenceCapacity i (countOf pool i).toNat } i

/-- `ToosTypeSpawnEngine_build_deck`: the engine afterwards, or `none` for `false`, which leaves
the engine alone. -/
def buildDeck (engine : SpawnEngine) (db : Repository) (language : Language) :
    Option SpawnEngine :=
  if engine.loaded then none
  else if engine.basePool.isSome then none
  else if (List.finRange maxPhases).any fun i => (engine.sequence i).isSome then none
  else if language ≠ .en ∧ language ≠ .ko then none
  else
    match (List.finRange maxPhases).foldlM (fun c diff => visitByDifficulty db language diff c)
        (⟨[], 0, engine.rngState⟩ : Collector) with
    | none => none
    | some c =>
        if c.pool = [] then none
        else if (List.finRange maxPhases).any fun i => countOf c.pool i = 0 then none
        else
          let grouped := groupLoop c.pool (startOf c.pool)
            (List.replicate c.pool.length Sentence.zero)
          let temp := { init c.rngState with basePool := some grouped }
          match (List.finRange maxPhases).foldlM (startSequence engine.rngState c.pool) temp with
          | none => none
          | some temp => some { temp with loaded := true }

/-- The loop of `ToosTypeSpawnEngine_ensure_cursor`. -/
def ensureLoop (i : Fin maxPhases) (needed : ℕ) : ℕ → SpawnEngine → Bool × SpawnEngine
  | 0, engine => (true, engine)
  | fuel + 1, engine =>
      if ((engine.sequence i).getD []).length < needed then
        match appendEpoch engine i with
        | none => (false, engine)
        | some engine => ensureLoop i needed fuel engine
      else (true, engine)

/-- `ToosTypeSpawnEngine_ensure_cursor`: what it returns, and the engine afterwards. Every round
of its loop makes the sequence longer, so there are at most as many rounds as elements needed. -/
def ensureCursor (engine : SpawnEngine) (difficulty : UInt32) (cursor : UInt64) :
    Bool × SpawnEngine :=
  if !engine.loaded then (false, engine)
  else
    match Room.phaseIndex difficulty with
    | none => (false, engine)
    | some i =>
        let count := (engine.difficultyCount i).toNat
        if count = 0 then (false, engine)
        else
          match engine.sequence i with
          | none => (false, engine)
          | some sequence =>
              if cursor.toNat < sequence.length then (true, engine)
              else
                let epochIndex := cursor.toNat / count
                if epochIndex = sizeMax then (false, engine)
                else if epochIndex + 1 > sizeMax / count then (false, engine)
                else
                  let needed := (epochIndex + 1) * count
                  if needed > sizeMax / 4 then (false, engine)
                  else
                    let engine := if needed > engine.sequenceCapacity i then
                        { engine with
                          sequenceCapacity := Function.update engine.sequenceCapacity i needed }
                      else engine
                    ensureLoop i needed needed engine

/-- `ToosTypeSpawnEngine_sentence_at`. -/
def sentenceAt (engine : SpawnEngine) (difficulty : UInt32) (cursor : UInt64) : Option Sentence :=
  if !engine.loaded then none
  else
    match engine.basePool, Room.phaseIndex difficulty with
    | some pool, some i =>
        match (engine.sequence i).bind (·[cursor.toNat]?) with
        | none => none
        | some relativeIndex =>
            if relativeIndex ≥ engine.difficultyCount i then none
            else pool[(engine.difficultyStart i).toNat + relativeIndex.toNat]?
    | _, _ => none

end SpawnEngine

end ToosType
