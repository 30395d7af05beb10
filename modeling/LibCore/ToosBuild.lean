import LibCore.ToosDeck
import Mathlib.Data.List.Perm.Subperm

/-!
# ToosType: Building the Deck

`ToosTypeSpawnEngine_build_deck` with all its ways out. The collector takes a row into a new slot, or overwrites
one, so the sample never holds more than was visited; a counting sort puts it into groups, one for each
difficulty; the first epoch of a difficulty is a shuffle of the places of its group. The engine is written once,
at the end.

## Main definitions

* `buildDeckCall`: what the function returns, and the engine afterwards, whichever allocations fail.
* `IsDeck`: a deck of the rows of a repository.

## Main results

* `groupLoop_startOf`: the counting sort.
* `shuffleLoop_perm`: the shuffle.
* `buildDeckCall_spec`: a call makes a deck of the visited rows, or leaves the engine alone.
-/

namespace ToosType

namespace SpawnEngine

/-! ### The call -/

/-- Which allocations succeed. -/
structure Memory where
  samplePool : Bool
  sampleDifficulty : Bool
  groupedPool : Bool
  sequence : Fin maxPhases → Bool

/-- `ToosTypeSpawnEngine_build_deck`: what it returns, and the engine afterwards. -/
def buildDeckCall (memory : Memory) (engine : SpawnEngine) (db : Repository) (language : Language) :
    Bool × SpawnEngine :=
  if engine.loaded then (false, engine)
  else if engine.basePool.isSome then (false, engine)
  else if (List.finRange maxPhases).any fun i => (engine.sequence i).isSome then (false, engine)
  else if language ≠ .en ∧ language ≠ .ko then (false, engine)
  else if !memory.samplePool then (false, engine)
  else if !memory.sampleDifficulty then (false, engine)
  else
    match (List.finRange maxPhases).foldlM (fun c diff => visitByDifficulty db language diff c)
        (⟨[], 0, engine.rngState⟩ : Collector) with
    | none => (false, engine)
    | some c =>
        if c.pool = [] then (false, engine)
        else if (List.finRange maxPhases).any fun i => countOf c.pool i = 0 then (false, engine)
        else if !memory.groupedPool then (false, engine)
        else
          let grouped := groupLoop c.pool (startOf c.pool) (List.replicate c.pool.length Sentence.zero)
          let temp := { init c.rngState with basePool := some grouped }
          let start (temp : SpawnEngine) (i : Fin maxPhases) : Option SpawnEngine :=
            if (countOf c.pool i).toNat > sizeMax / 4 then none
            else if !memory.sequence i then none
            else startSequence engine.rngState c.pool temp i
          match (List.finRange maxPhases).foldlM start temp with
          | none => (false, engine)
          | some temp => (true, { temp with loaded := true })

/-- A step that gives up more often gives nothing else. -/
theorem foldlM_of_imp {α β : Type} {f g : β → α → Option β}
    (hfg : ∀ b a b', f b a = some b' → g b a = some b')
    {as : List α} {b b' : β} (h : as.foldlM f b = some b') : as.foldlM g b = some b' := by
  induction as generalizing b with
  | nil => exact h
  | cons a as ih =>
      obtain ⟨b₁, hb₁, hrest⟩ := Option.bind_eq_some_iff.mp h
      exact Option.bind_eq_some_iff.mpr ⟨b₁, hfg b a b₁ hb₁, ih hrest⟩

/-- **The ways out.** The engine is as it was, or it is the new deck. -/
theorem buildDeckCall_cases (memory : Memory) (engine : SpawnEngine) (db : Repository)
    (language : Language) :
    buildDeckCall memory engine db language = (false, engine) ∨
      ∃ e, buildDeckCall memory engine db language = (true, e) ∧ buildDeck engine db language = some e := by
  rw [buildDeckCall, buildDeck]
  by_cases hloaded : engine.loaded
  · exact Or.inl (if_pos hloaded)
  by_cases hpool : engine.basePool.isSome
  · exact Or.inl (by rw [if_neg hloaded, if_pos hpool])
  by_cases hsequence : ((List.finRange maxPhases).any fun i => (engine.sequence i).isSome) = true
  · exact Or.inl (by rw [if_neg hloaded, if_neg hpool, if_pos hsequence])
  by_cases hlanguage : language ≠ .en ∧ language ≠ .ko
  · exact Or.inl (by rw [if_neg hloaded, if_neg hpool, if_neg hsequence, if_pos hlanguage])
  rw [if_neg hloaded, if_neg hpool, if_neg hsequence, if_neg hlanguage, if_neg hloaded, if_neg hpool,
    if_neg hsequence, if_neg hlanguage]
  by_cases hsample : (!memory.samplePool) = true
  · exact Or.inl (if_pos hsample)
  by_cases hdifficulty : (!memory.sampleDifficulty) = true
  · exact Or.inl (by rw [if_neg hsample, if_pos hdifficulty])
  rw [if_neg hsample, if_neg hdifficulty]
  cases (List.finRange maxPhases).foldlM (fun c diff => visitByDifficulty db language diff c)
      (⟨[], 0, engine.rngState⟩ : Collector) with
  | none => exact Or.inl rfl
  | some c =>
      simp only
      by_cases hempty : c.pool = []
      · exact Or.inl (if_pos hempty)
      by_cases hcount : ((List.finRange maxPhases).any fun i => countOf c.pool i = 0) = true
      · exact Or.inl (by rw [if_neg hempty, if_pos hcount])
      by_cases hgrouped : (!memory.groupedPool) = true
      · exact Or.inl (by rw [if_neg hempty, if_neg hcount, if_pos hgrouped])
      rw [if_neg hempty, if_neg hcount, if_neg hgrouped, if_neg hempty, if_neg hcount]
      split
      · exact Or.inl rfl
      · rename_i temp htemp
        have hstart := foldlM_of_imp (g := startSequence engine.rngState c.pool) (fun e i e' he => by
          split_ifs at he
          exact he) htemp
        exact Or.inr ⟨_, rfl, by rw [hstart]⟩

/-! ### The sample -/

/-- A collector that holds some of the rows it has seen. -/
structure Sampled (rows : List (Sentence × Fin maxPhases)) (c : Collector) : Prop where
  length_le : c.pool.length ≤ maxPoolSize
  subperm : c.pool.Subperm rows

/-- A row takes a new slot, or the slot of another one, or none. -/
theorem Sampled.poolCollect {rows : List (Sentence × Fin maxPhases)} {c c' : Collector} (h : Sampled rows c)
    {d : Fin maxPhases} {s : Sentence} (hc : poolCollect d s c = some c') :
    Sampled (rows ++ [(s, d)]) c' := by
  have hkeep : c.pool.Subperm (rows ++ [(s, d)]) := h.subperm.trans (List.sublist_append_left _ _).subperm
  rw [SpawnEngine.poolCollect] at hc
  split_ifs at hc with hmax hslot
  · obtain rfl := Option.some.inj hc
    refine ⟨?_, (List.subperm_append_right _).mpr h.subperm⟩
    rw [List.length_append, List.length_singleton]
    exact hslot
  · simp only at hc
    split_ifs at hc with hj
    · obtain rfl := Option.some.inj hc
      exact ⟨h.length_le, hkeep⟩
    · obtain rfl := Option.some.inj hc
      refine ⟨by simpa using h.length_le, ?_⟩
      have hlt : (boundedRand64 c.rngState (c.seenCount + 1)).1.toNat < c.pool.length := by
        have := h.length_le
        omega
      -- the row in place of another one
      refine (List.set_perm_cons_eraseIdx hlt (s, d)).subperm.trans ?_
      refine List.Subperm.trans ?_ (@List.perm_append_comm _ [(s, d)] rows).subperm
      exact (List.subperm_cons _).mpr ((List.eraseIdx_sublist _ _).subperm.trans h.subperm)

theorem Sampled.visit {rows : List (Sentence × Fin maxPhases)} {c c' : Collector} (h : Sampled rows c)
    {db : Repository} {language : Language} {d : Fin maxPhases}
    (hc : visitByDifficulty db language d c = some c') :
    Sampled (rows ++ (db language d).1.map (·, d)) c' := by
  rw [visitByDifficulty] at hc
  cases hfold : (db language d).1.foldlM (fun c s => SpawnEngine.poolCollect d s c) c with
  | none =>
      rw [hfold] at hc
      cases hc
  | some c₁ =>
      rw [hfold] at hc
      simp only at hc
      split_ifs at hc
      obtain rfl := Option.some.inj hc
      clear hc
      generalize (db language d).1 = ss at hfold ⊢
      induction ss generalizing rows c with
      | nil =>
          obtain rfl := Option.some.inj hfold
          rwa [List.map_nil, List.append_nil]
      | cons s ss ih =>
          obtain ⟨c₂, hfirst, hrest⟩ := Option.bind_eq_some_iff.mp hfold
          have := ih (h.poolCollect hfirst) hrest
          rwa [List.append_assoc] at this

/-- The rows a repository visits for a language, with their difficulties. -/
def visitedRows (db : Repository) (language : Language) (ds : List (Fin maxPhases)) :
    List (Sentence × Fin maxPhases) := ds.flatMap fun d => (db language d).1.map (·, d)

/-- The sample of all visits. -/
theorem Sampled.visits {rows : List (Sentence × Fin maxPhases)} {c c' : Collector} (h : Sampled rows c)
    {db : Repository} {language : Language} {ds : List (Fin maxPhases)}
    (hc : ds.foldlM (fun c diff => visitByDifficulty db language diff c) c = some c') :
    Sampled (rows ++ visitedRows db language ds) c' := by
  induction ds generalizing rows c with
  | nil =>
      obtain rfl := Option.some.inj hc
      rwa [visitedRows, List.flatMap_nil, List.append_nil]
  | cons d ds ih =>
      obtain ⟨c₁, hfirst, hrest⟩ := Option.bind_eq_some_iff.mp hc
      have := ih (h.visit hfirst) hrest
      rwa [List.append_assoc] at this

/-- The sentences of a difficulty in a pool. -/
def groupOf (pool : List (Sentence × Fin maxPhases)) (d : Fin maxPhases) : List Sentence :=
  (pool.filter fun s => s.2 = d).map Prod.fst

theorem groupOf_append (pool pool' : List (Sentence × Fin maxPhases)) (d : Fin maxPhases) :
    groupOf (pool ++ pool') d = groupOf pool d ++ groupOf pool' d := by
  rw [groupOf, List.filter_append, List.map_append]
  rfl

theorem length_groupOf (pool : List (Sentence × Fin maxPhases)) (d : Fin maxPhases) :
    (groupOf pool d).length = pool.countP fun s => s.2 = d := by
  rw [groupOf, List.length_map, List.countP_eq_length_filter]

theorem groupOf_cons_self (pool : List (Sentence × Fin maxPhases)) (s : Sentence) (d : Fin maxPhases) :
    groupOf ((s, d) :: pool) d = s :: groupOf pool d := by
  rw [groupOf, List.filter_cons_of_pos (by simp), List.map_cons]
  rfl

theorem groupOf_cons_of_ne {pool : List (Sentence × Fin maxPhases)} {s : Sentence} {d d' : Fin maxPhases}
    (h : d' ≠ d) : groupOf ((s, d) :: pool) d' = groupOf pool d' := by
  rw [groupOf, List.filter_cons_of_neg (by simpa using h.symm)]
  rfl

theorem groupOf_map (ss : List Sentence) (d d' : Fin maxPhases) :
    groupOf (ss.map (·, d')) d = if d' = d then ss else [] := by
  rw [groupOf, List.filter_map, List.map_map]
  split_ifs with h
  · simp [Function.comp_def, h]
  · simp [Function.comp_def, h]

/-- The rows of a difficulty are those visited under it. -/
theorem groupOf_visitedRows (db : Repository) (language : Language) {ds : List (Fin maxPhases)}
    (hds : ds.Nodup) (d : Fin maxPhases) :
    groupOf (visitedRows db language ds) d = if d ∈ ds then (db language d).1 else [] := by
  induction ds with
  | nil => rfl
  | cons d' ds ih =>
      obtain ⟨hnot, hnodup⟩ := List.nodup_cons.mp hds
      rw [visitedRows, List.flatMap_cons, groupOf_append, groupOf_map]
      change _ ++ groupOf (visitedRows db language ds) d = _
      rw [ih hnodup]
      by_cases heq : d' = d
      · subst heq
        rw [if_pos rfl, if_neg hnot, if_pos List.mem_cons_self, List.append_nil]
      · rw [if_neg heq, List.nil_append]
        exact if_congr (by rw [List.mem_cons, or_iff_right (Ne.symm heq)]) rfl rfl

/-- A group has rows of its difficulty only, and none more often than it was visited. -/
theorem Sampled.groupOf {db : Repository} {language : Language} {c : Collector}
    (h : Sampled (visitedRows db language (List.finRange maxPhases)) c) (d : Fin maxPhases) :
    (groupOf c.pool d).Subperm (db language d).1 := by
  have hrows := groupOf_visitedRows db language (List.nodup_finRange maxPhases) d
  rw [if_pos (List.mem_finRange d)] at hrows
  obtain ⟨l, hperm, hsub⟩ := h.subperm.filter fun s => s.2 = d
  rw [← hrows]
  exact ⟨l.map Prod.fst, hperm.map _, hsub.map _⟩

/-! ### The counting sort -/

/-- The difficulties before one, and those behind it. -/
theorem finRange_eq (d : Fin maxPhases) :
    List.finRange maxPhases = (List.finRange maxPhases).filter (· < d) ++
      d :: (List.finRange maxPhases).filter (d < ·) := by
  revert d
  decide

/-- The place of a group: how many there are in the groups before it. -/
def offset (size : Fin maxPhases → ℕ) (d : Fin maxPhases) : ℕ :=
  (((List.finRange maxPhases).filter (· < d)).map size).sum

theorem offset_add_le (size : Fin maxPhases → ℕ) (d : Fin maxPhases) :
    offset size d + size d ≤ ((List.finRange maxPhases).map size).sum := by
  rw [finRange_eq d, List.map_append, List.sum_append, List.map_cons, List.sum_cons, offset]
  omega

/-- Writing into a group. -/
theorem set_flatMap {α : Type} {f : Fin maxPhases → List α} {d : Fin maxPhases} {a b : List α} {x : α}
    (hf : f d = a ++ x :: b) (y : α) :
    ((List.finRange maxPhases).flatMap f).set (offset (fun d => (f d).length) d + a.length) y =
      (List.finRange maxPhases).flatMap (Function.update f d (a ++ y :: b)) := by
  have hother : ∀ ds : List (Fin maxPhases), d ∉ ds →
      ds.flatMap (Function.update f d (a ++ y :: b)) = ds.flatMap f := by
    intro ds hds
    refine List.flatMap_congr fun d' hd' => Function.update_of_ne (fun heq => ?_) _ _
    rw [heq] at hd'
    exact hds hd'
  have hset : ∀ before after : List (Fin maxPhases), d ∉ before → d ∉ after →
      ((before ++ d :: after).flatMap f).set ((before.flatMap f).length + a.length) y =
        (before ++ d :: after).flatMap (Function.update f d (a ++ y :: b)) := by
    intro before after hbefore hafter
    rw [List.flatMap_append, List.flatMap_append, List.flatMap_cons, List.flatMap_cons, hother _ hbefore,
      hother _ hafter, Function.update_self, hf, List.set_append_right _ _ (Nat.le_add_right _ _),
      Nat.add_sub_cancel_left, List.append_assoc, List.set_append_right _ _ le_rfl, Nat.sub_self,
      List.append_assoc]
    rfl
  have hd := hset ((List.finRange maxPhases).filter (· < d)) ((List.finRange maxPhases).filter (d < ·))
    (by simp) (by simp)
  rw [← finRange_eq d] at hd
  rw [← hd, offset, List.length_flatMap]

/-- The groups while the sample is put into them: what is there already, and zeros. -/
def groupBlock (filled : Fin maxPhases → List Sentence) (rest : List (Sentence × Fin maxPhases))
    (d : Fin maxPhases) :
    List Sentence := filled d ++ List.replicate (groupOf rest d).length Sentence.zero

/-- The loop puts a sentence behind the others of its difficulty. -/
theorem groupLoop_eq (rest : List (Sentence × Fin maxPhases)) (filled : Fin maxPhases → List Sentence)
    (writePos : Fin maxPhases → UInt32) (size : Fin maxPhases → ℕ)
    (hsize : ∀ d, (filled d).length + (groupOf rest d).length = size d)
    (hpos : ∀ d, (writePos d).toNat = offset size d + (filled d).length)
    (hsmall : ((List.finRange maxPhases).map size).sum < 2 ^ 32) :
    groupLoop rest writePos ((List.finRange maxPhases).flatMap (groupBlock filled rest)) =
      (List.finRange maxPhases).flatMap fun d => filled d ++ groupOf rest d := by
  induction rest generalizing filled writePos with
  | nil =>
      rw [groupLoop]
      refine List.flatMap_congr fun d _ => ?_
      rfl
  | cons entry rest ih =>
      obtain ⟨s, d⟩ := entry
      have hblock : groupBlock filled ((s, d) :: rest) d =
          filled d ++ Sentence.zero :: List.replicate (groupOf rest d).length Sentence.zero := by
        rw [groupBlock, groupOf_cons_self, List.length_cons, List.replicate_succ]
      have hlength : (fun d' => (groupBlock filled ((s, d) :: rest) d').length) = size := by
        funext d'
        rw [groupBlock, List.length_append, List.length_replicate, hsize]
      have hset := set_flatMap hblock s
      rw [hlength, ← hpos] at hset
      have hfilled : Function.update (groupBlock filled ((s, d) :: rest)) d
          (filled d ++ s :: List.replicate (groupOf rest d).length Sentence.zero) =
          groupBlock (Function.update filled d (filled d ++ [s])) rest := by
        funext d'
        by_cases heq : d' = d
        · subst heq
          rw [Function.update_self, groupBlock, Function.update_self, List.append_assoc]
          rfl
        · rw [Function.update_of_ne heq, groupBlock, groupBlock, Function.update_of_ne heq,
            groupOf_cons_of_ne heq]
      rw [groupLoop, hset, hfilled, ih]
      · refine List.flatMap_congr fun d' _ => ?_
        by_cases heq : d' = d
        · subst heq
          rw [Function.update_self, groupOf_cons_self, List.append_assoc]
          rfl
        · rw [Function.update_of_ne heq, groupOf_cons_of_ne heq]
      · intro d'
        have hd' := hsize d'
        by_cases heq : d' = d
        · subst heq
          rw [groupOf_cons_self, List.length_cons] at hd'
          rw [Function.update_self, List.length_append, List.length_singleton]
          omega
        · rw [groupOf_cons_of_ne heq] at hd'
          rw [Function.update_of_ne heq, hd']
      · intro d'
        by_cases heq : d' = d
        · subst heq
          -- the next position of a group does not wrap
          have hle := offset_add_le size d'
          have hd' := hsize d'
          rw [groupOf_cons_self, List.length_cons] at hd'
          have hp := hpos d'
          rw [Function.update_self, Function.update_self, List.length_append, List.length_singleton,
            UInt32.toNat_add, UInt32.toNat_one, Nat.mod_eq_of_lt (by omega)]
          omega
        · rw [Function.update_of_ne heq, Function.update_of_ne heq, hpos]

theorem length_groups (pool : List (Sentence × Fin maxPhases)) :
    ((List.finRange maxPhases).map fun d => (groupOf pool d).length).sum = pool.length := by
  induction pool with
  | nil => rfl
  | cons entry pool ih =>
      obtain ⟨s, d⟩ := entry
      have hcons : ∀ ds : List (Fin maxPhases), d ∉ ds →
          (ds.map fun d' => (groupOf ((s, d) :: pool) d').length) =
            ds.map fun d' => (groupOf pool d').length := by
        intro ds hds
        refine List.map_congr_left fun d' hd' => ?_
        have hne : d' ≠ d := by
          rintro rfl
          exact hds hd'
        rw [groupOf_cons_of_ne hne]
      rw [finRange_eq d, List.map_append, List.sum_append, List.map_cons, List.sum_cons] at ih ⊢
      rw [hcons _ (by simp), hcons _ (by simp), groupOf_cons_self, List.length_cons, List.length_cons]
      omega

theorem flatMap_replicate {α : Type} (z : α) (size : Fin maxPhases → ℕ) (ds : List (Fin maxPhases)) :
    (ds.flatMap fun d => List.replicate (size d) z) = List.replicate (ds.map size).sum z := by
  induction ds with
  | nil => rfl
  | cons d ds ih =>
      rw [List.flatMap_cons, ih, List.replicate_append_replicate, List.map_cons, List.sum_cons]

section Counts

variable {pool : List (Sentence × Fin maxPhases)} (hpool : pool.length < 2 ^ 32)

include hpool

theorem countOf_toNat (d : Fin maxPhases) : (countOf pool d).toNat = (groupOf pool d).length := by
  have hle : pool.countP (fun s => s.2 = d) ≤ pool.length := List.countP_le_length
  rw [countOf, length_groupOf, UInt32.toNat_ofNat', Nat.mod_eq_of_lt (by omega)]

theorem startOf_toNat (d : Fin maxPhases) :
    (startOf pool d).toNat = offset (fun d => (groupOf pool d).length) d := by
  have hfold : ∀ (ds : List (Fin maxPhases)) (start : UInt32),
      start.toNat + (ds.map fun d => (groupOf pool d).length).sum < 2 ^ 32 →
      (ds.foldl (fun start d => start + countOf pool d) start).toNat =
        start.toNat + (ds.map fun d => (groupOf pool d).length).sum := by
    intro ds
    induction ds with
    | nil => exact fun _ _ => rfl
    | cons d ds ih =>
        intro start hlt
        rw [List.map_cons, List.sum_cons, ← Nat.add_assoc] at hlt ⊢
        have hstart : (start + countOf pool d).toNat = start.toNat + (groupOf pool d).length := by
          rw [UInt32.toNat_add, countOf_toNat hpool, Nat.mod_eq_of_lt (by omega)]
        rw [List.foldl_cons, ih _ (by rw [hstart]; exact hlt), hstart]
  have hle := offset_add_le (fun d => (groupOf pool d).length) d
  rw [length_groups] at hle
  rw [startOf, hfold _ _ (by rw [offset] at hle; simp; omega), offset]
  simp

/-- **The counting sort** puts the groups one behind another. -/
theorem groupLoop_startOf :
    groupLoop pool (startOf pool) (List.replicate pool.length Sentence.zero) =
      (List.finRange maxPhases).flatMap (groupOf pool) := by
  have hzeros : List.replicate pool.length Sentence.zero =
      (List.finRange maxPhases).flatMap (groupBlock (fun _ => []) pool) := by
    rw [← length_groups pool, ← flatMap_replicate]
    rfl
  rw [hzeros, groupLoop_eq pool (fun _ => []) (startOf pool) (fun d => (groupOf pool d).length)]
  · rfl
  · exact fun d => Nat.zero_add _
  · exact fun d => startOf_toNat hpool d
  · rwa [length_groups]

end Counts

/-! ### The shuffle -/

theorem swapAt_perm {xs : List UInt32} {i j : ℕ} (hi : i < xs.length) (hj : j < xs.length) :
    (swapAt xs i j).Perm xs := by
  have hgetD : ∀ {k : ℕ} (hk : k < xs.length), xs.getD k 0 = xs[k] := fun hk => by
    rw [List.getD_eq_getElem?_getD, List.getElem?_eq_getElem hk, Option.getD_some]
  have hget : (xs.set i (xs.getD j 0))[j]?.getD (xs.getD i 0) = xs.getD j 0 := by
    rw [List.getElem?_set]
    split_ifs with heq
    · rfl
    · rw [List.getElem?_eq_getElem hj, hgetD hj, Option.getD_some]
  have hfirst := List.getD_set_perm_cons xs i (xs.getD j 0)
  rw [List.getElem?_eq_getElem hi, Option.getD_some, ← hgetD hi] at hfirst
  have hsecond := List.getD_set_perm_cons (xs.set i (xs.getD j 0)) j (xs.getD i 0)
  rw [hget] at hsecond
  exact (hsecond.trans hfirst).cons_inv

/-- `bounded_rand` stays below its bound. -/
theorem boundedRand_lt (state : UInt64) {bound : UInt32} (h : 0 < bound.toNat) :
    (boundedRand state bound).1.toNat < bound.toNat := by
  rw [boundedRand]
  split_ifs
  · exact h
  · cases randLoop ((0 - bound) % bound) (2 ^ 64) state with
    | mk r state => exact (UInt32.toNat_mod r bound).trans_lt (Nat.mod_lt _ h)

/-- **The shuffle** only moves the places. -/
theorem shuffleLoop_perm (i : ℕ) {xs : List UInt32} (hi : i < xs.length) (hlen : xs.length < 2 ^ 32)
    (state : UInt64) : (shuffleLoop i xs state).1.Perm xs := by
  induction i generalizing xs state with
  | zero => exact List.Perm.refl _
  | succ i ih =>
      have hbound : (UInt32.ofNat (i + 2)).toNat = i + 2 := by
        rw [UInt32.toNat_ofNat', Nat.mod_eq_of_lt (by omega)]
      have hj := @boundedRand_lt state (UInt32.ofNat (i + 2)) (by omega)
      rw [hbound] at hj
      rw [shuffleLoop]
      generalize boundedRand state (UInt32.ofNat (i + 2)) = drawn at hj ⊢
      have hswap : (swapAt xs (i + 1) drawn.1.toNat).Perm xs := swapAt_perm hi (by omega)
      exact (ih (by rw [hswap.length_eq]; omega) (by rwa [hswap.length_eq]) drawn.2).trans hswap

theorem epoch_perm {count : ℕ} (hcount : count < 2 ^ 32) (state : UInt64) :
    (epoch count state).1.Perm ((List.range count).map UInt32.ofNat) := by
  cases count with
  | zero => exact List.Perm.refl _
  | succ n => exact shuffleLoop_perm n (by simp) (by simpa using hcount) state

/-! ### The deck -/

/-- A difficulty of a new deck: where its group is, and its first epoch. -/
structure Dealt (pool : List (Sentence × Fin maxPhases)) (e : SpawnEngine) (i : Fin maxPhases) : Prop where
  start : e.difficultyStart i = startOf pool i
  count : e.difficultyCount i = countOf pool i
  sequence : ∃ xs, e.sequence i = some xs ∧ xs.Perm ((List.range (countOf pool i).toNat).map UInt32.ofNat)

theorem startSequence_dealt {seed : UInt64} {pool : List (Sentence × Fin maxPhases)} {e e' : SpawnEngine}
    {i : Fin maxPhases} (h : startSequence seed pool e i = some e') :
    (e'.basePool = e.basePool ∧ Dealt pool e' i) ∧ ∀ j, j ≠ i → Dealt pool e j → Dealt pool e' j := by
  rw [startSequence] at h
  obtain ⟨xs, hxs, -, -, rfl⟩ := appendEpoch_eq_some h
  simp only [Function.update_self, Option.some.injEq] at hxs
  subst hxs
  refine ⟨⟨rfl, ⟨Function.update_self _ _ _, Function.update_self _ _ _, ?_⟩⟩,
    fun j hj hdealt => ⟨?_, ?_, ?_⟩⟩
  · refine ⟨_, Function.update_self _ _ _, ?_⟩
    simp only [Function.update_self, List.nil_append]
    exact epoch_perm (countOf pool i).toNat_lt _
  · simpa only [Function.update_of_ne hj] using hdealt.start
  · simpa only [Function.update_of_ne hj] using hdealt.count
  · simpa only [Function.update_of_ne hj] using hdealt.sequence

theorem basePool_startSequences {seed : UInt64} {pool : List (Sentence × Fin maxPhases)}
    {e e' : SpawnEngine} {is : List (Fin maxPhases)} (h : is.foldlM (startSequence seed pool) e = some e') :
    e'.basePool = e.basePool := by
  induction is generalizing e with
  | nil =>
      obtain rfl := Option.some.inj h
      rfl
  | cons i is ih =>
      obtain ⟨e₁, hfirst, hrest⟩ := Option.bind_eq_some_iff.mp h
      rw [ih hrest, (startSequence_dealt hfirst).1.1]

/-- A deck of the rows of a repository: one group after another, each with rows of its difficulty, none more often
than it was visited, and a shuffle of the places of each group. -/
structure IsDeck (rows : Fin maxPhases → List Sentence) (e : SpawnEngine) : Prop where
  loaded : e.loaded = true
  pool : ∃ groups : Fin maxPhases → List Sentence,
    e.basePool = some ((List.finRange maxPhases).flatMap groups) ∧
      ∀ d, groups d ≠ [] ∧ (groups d).Subperm (rows d) ∧ (e.difficultyCount d).toNat = (groups d).length ∧
        (e.difficultyStart d).toNat = (((List.finRange maxPhases).filter (· < d)).flatMap groups).length
  sequence : ∀ d, ∃ xs, e.sequence d = some xs ∧
    xs.Perm ((List.range (e.difficultyCount d).toNat).map UInt32.ofNat)

/-- What is made of a sample is a deck. -/
theorem buildDeck_isDeck {e e' : SpawnEngine} {db : Repository} {language : Language}
    (h : buildDeck e db language = some e') : IsDeck (fun d => (db language d).1) e' := by
  rw [buildDeck] at h
  split_ifs at h
  split at h
  · cases h
  rename_i c hvisits
  split_ifs at h with hempty hcounts
  simp only at h
  split at h
  · cases h
  rename_i temp htemp
  obtain rfl := Option.some.inj h
  have hsampled : Sampled (visitedRows db language (List.finRange maxPhases)) c := by
    have hnew : Sampled [] (⟨[], 0, e.rngState⟩ : Collector) := ⟨Nat.zero_le _, List.nil_subperm⟩
    simpa using hnew.visits hvisits
  have hpool : c.pool.length < 2 ^ 32 := hsampled.length_le.trans_lt (by decide)
  have hstep : ∀ e₁ i e₂, startSequence e.rngState c.pool e₁ i = some e₂ →
      Dealt c.pool e₂ i ∧ ∀ j, j ≠ i → Dealt c.pool e₁ j → Dealt c.pool e₂ j :=
    fun _ _ _ hstart => ⟨(startSequence_dealt hstart).1.2, (startSequence_dealt hstart).2⟩
  have hdealt := foldlM_each hstep [] htemp (by simp)
  have hbase : temp.basePool = some ((List.finRange maxPhases).flatMap (groupOf c.pool)) := by
    rw [← groupLoop_startOf hpool, basePool_startSequences htemp]
  refine ⟨rfl, ⟨groupOf c.pool, hbase, fun d => ?_⟩, fun d => ?_⟩
  · have hd := hdealt d (.inr (List.mem_finRange d))
    refine ⟨?_, hsampled.groupOf d, ?_, ?_⟩
    · intro hnil
      have hzero := countOf_toNat hpool d
      rw [hnil, List.length_nil] at hzero
      refine hcounts (List.any_eq_true.mpr ⟨d, List.mem_finRange d, ?_⟩)
      simpa [← UInt32.toNat_inj] using hzero
    · exact (congrArg UInt32.toNat hd.count).trans (countOf_toNat hpool d)
    · rw [List.length_flatMap]
      exact (congrArg UInt32.toNat hd.start).trans (startOf_toNat hpool d)
  · have hd := hdealt d (.inr (List.mem_finRange d))
    change ∃ xs, temp.sequence d = some xs ∧
      xs.Perm ((List.range (temp.difficultyCount d).toNat).map UInt32.ofNat)
    rw [hd.count]
    exact hd.sequence

section Decks

variable {rows : Fin maxPhases → List Sentence} {e : SpawnEngine} (h : IsDeck rows e)

include h

/-- The pool of a deck is a sub-multiset of the rows, and its groups are all of it. -/
theorem IsDeck.subperm : ∃ pool, e.basePool = some pool ∧
    pool.Subperm ((List.finRange maxPhases).flatMap rows) ∧
    ((List.finRange maxPhases).map fun d => (e.difficultyCount d).toNat).sum = pool.length := by
  obtain ⟨groups, hbase, hgroups⟩ := h.pool
  refine ⟨_, hbase, ?_, ?_⟩
  · generalize List.finRange maxPhases = ds
    induction ds with
    | nil => exact List.nil_subperm
    | cons d ds ih => exact (hgroups d).2.1.append ih
  · rw [List.length_flatMap]
    congr 1
    exact List.map_congr_left fun d _ => (hgroups d).2.2.1

/-- A deck deals sentences of the difficulty that is asked for. -/
theorem IsDeck.sentenceAt {difficulty : UInt32} {d : Fin maxPhases}
    (hd : Room.phaseIndex difficulty = some d)
    {cursor : UInt64} {xs : List UInt32} (hxs : e.sequence d = some xs) (hlt : cursor.toNat < xs.length) :
    ∃ s ∈ rows d, e.sentenceAt difficulty cursor = some s := by
  obtain ⟨groups, hbase, hgroups⟩ := h.pool
  obtain ⟨-, hsub, hcount, hstart⟩ := hgroups d
  obtain ⟨ys, hys, hperm⟩ := h.sequence d
  obtain rfl := Option.some.inj (hxs.symm.trans hys)
  obtain ⟨rel, hrel⟩ : ∃ rel, xs[cursor.toNat]? = some rel := ⟨_, List.getElem?_eq_getElem hlt⟩
  have hmem := hperm.mem_iff.mp (List.mem_of_getElem? hrel)
  obtain ⟨n, hn, rfl⟩ := List.mem_map.mp hmem
  rw [List.mem_range, hcount] at hn
  have hsmall := (e.difficultyCount d).toNat_lt
  have hrelNat : (UInt32.ofNat n).toNat = n := by
    rw [UInt32.toNat_ofNat', Nat.mod_eq_of_lt (by omega)]
  -- the place in the group is a place in the pool
  have hplace : ((List.finRange maxPhases).flatMap groups)[(e.difficultyStart d).toNat + n]? =
      some (groups d)[n] := by
    have hsplit : (List.finRange maxPhases).flatMap groups =
        ((List.finRange maxPhases).filter (· < d)).flatMap groups ++
        (groups d ++ ((List.finRange maxPhases).filter (d < ·)).flatMap groups) := by
      rw [← List.flatMap_cons, ← List.flatMap_append, ← finRange_eq d]
    rw [hsplit, hstart, List.getElem?_append_right (Nat.le_add_right _ _), Nat.add_sub_cancel_left,
      List.getElem?_append_left hn, List.getElem?_eq_getElem hn]
  refine ⟨(groups d)[n], hsub.subset (List.getElem_mem hn), ?_⟩
  rw [sentenceAt_eq_some_iff]
  refine ⟨h.loaded, _, d, xs, UInt32.ofNat n, hbase, hd, hxs, hrel, ?_, ?_⟩
  · rw [UInt32.lt_iff_toNat_lt, hrelNat, hcount]
    exact hn
  · rw [hrelNat, hplace]

end Decks

/-- **Building a deck.** A call that fails leaves the engine alone. One that succeeds makes a deck of the rows that
were visited: its pool is a sub-multiset of them in groups, the sequences are shuffles of the places of the groups,
and every cursor of a difficulty deals a sentence that was visited under it. -/
theorem buildDeckCall_spec (memory : Memory) (engine : SpawnEngine) (db : Repository)
    (language : Language) :
    ((buildDeckCall memory engine db language).1 = false →
      (buildDeckCall memory engine db language).2 = engine) ∧
    ((buildDeckCall memory engine db language).1 = true →
      IsDeck (fun d => (db language d).1) (buildDeckCall memory engine db language).2 ∧
      (∃ pool, (buildDeckCall memory engine db language).2.basePool = some pool ∧
        pool.Subperm ((List.finRange maxPhases).flatMap fun d => (db language d).1) ∧
        ((List.finRange maxPhases).map fun d =>
          ((buildDeckCall memory engine db language).2.difficultyCount d).toNat).sum = pool.length) ∧
      ∀ difficulty d cursor xs, Room.phaseIndex difficulty = some d →
        (buildDeckCall memory engine db language).2.sequence d = some xs → cursor.toNat < xs.length →
          ∃ s ∈ (db language d).1,
            (buildDeckCall memory engine db language).2.sentenceAt difficulty cursor = some s) := by
  rcases buildDeckCall_cases memory engine db language with hcall | ⟨e, hcall, hbuild⟩
  · rw [hcall]
    exact ⟨fun _ => rfl, nofun⟩
  · rw [hcall]
    have hdeck := buildDeck_isDeck hbuild
    exact ⟨nofun, fun _ => ⟨hdeck, hdeck.subperm, fun difficulty d cursor xs hd hxs hlt =>
      hdeck.sentenceAt hd hxs hlt⟩⟩

/-- A repository with one sentence for each difficulty. -/
def oneSentenceEach : Repository := fun _ d => ([{ Sentence.zero with id := UInt64.ofNat d }], true)

theorem buildDeckCall_oneSentenceEach :
    (buildDeckCall ⟨true, true, true, fun _ => true⟩ (init 1) oneSentenceEach .en).1 = true ∧
      IsDeck (fun d => (oneSentenceEach .en d).1)
        (buildDeckCall ⟨true, true, true, fun _ => true⟩ (init 1) oneSentenceEach .en).2 := by
  have hcall : (buildDeckCall ⟨true, true, true, fun _ => true⟩ (init 1) oneSentenceEach .en).1 = true := by
    decide +kernel
  exact ⟨hcall, ((buildDeckCall_spec _ _ _ _).2 hcall).1⟩

end SpawnEngine

end ToosType
