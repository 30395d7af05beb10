import Mathlib.Data.List.ReduceOption
import LibCore.RefCount

/-!
# Deferred Release

`deferRelease` and `flush_defer_queue` of `event_loop.c`. The loop keeps references that are to be given up
later in an array that doubles when it is full. The flush walks over the array by index; an object that goes
with its last reference runs a finalizer, which gives up the references the object owns, at once or by another
`deferRelease`. The array may so grow, and move, while the flush walks over it.

The state carries two logs that the code does not have: the objects of all calls of `deferRelease`, and those
of all releases that a flush has made.

## Main definitions

* `State`, `deferRelease`, `runActions`, `flushDeferQueue`: the queue.
* `Step`, `Reachable`: any order of calls, flushes and changes that the rest of the program makes to the heap.

## Main results

* `flushFrom_spec`: a flush ends, and has then released everything that was deferred.
* `every_call_released`: the same from every reachable state.
-/

open RefCount

namespace DeferQueue

variable {ι : Type}

/-- What a finalizer does with a reference that its object owns. -/
inductive Action (ι : Type)
  | release (x : ι)
  | defer (x : ι)

def Action.target : Action ι → ι
  | .release x => x
  | .defer x => x

/-- The part of `EventLoop` that is used here. -/
structure State (ι : Type) where
  heap : Heap ι
  /-- `defer_pending`, up to `defer_count`. -/
  pending : List (Option ι)
  /-- `defer_capacity`. -/
  capacity : ℕ
  /-- The objects of all calls of `deferRelease`. -/
  calls : List ι
  /-- The objects that a flush has released. -/
  released : List ι
  /-- Whether an allocation has failed. -/
  failed : Bool

/-- The greatest `int`. -/
def intMax : ℕ := 2 ^ 31 - 1

def State.push (st : State ι) (x : ι) : State ι :=
  { st with pending := st.pending ++ [some x], calls := st.calls ++ [x] }

/-- `new_cap`. -/
def newCap (capacity : ℕ) : ℕ := if capacity = 0 then 64 else capacity * 2

/-- `_deferRelease`. `realloc n` says whether the allocation of the `n`-th call succeeds; one of a capacity
that is no `int` does not. -/
def deferRelease (realloc : ℕ → Bool) (st : State ι) : Option ι → State ι
  | none => st
  | some x =>
      if st.pending.length ≥ st.capacity then
        if newCap st.capacity ≤ intMax ∧ realloc st.calls.length = true then
          { st.push x with capacity := newCap st.capacity }
        else { st with calls := st.calls ++ [x], failed := true }
      else st.push x

variable [DecidableEq ι]

/-- The actions of finalizers, the oldest one last: `RELEASE`, with what the last reference to an object
takes with it, and `deferRelease`. `none` is the use of an object that is gone, or too little fuel. -/
def runActions (realloc : ℕ → Bool) (finalizer : ι → List (Action ι)) :
    ℕ → State ι → List (Action ι) → Option (State ι)
  | _, st, [] => some st
  | 0, _, _ :: _ => none
  | fuel + 1, st, .defer x :: acts => runActions realloc finalizer fuel (deferRelease realloc st (some x)) acts
  | fuel + 1, st, .release x :: acts =>
      match st.heap x with
      | none => none
      | some c =>
          if c.count = 1 then
            runActions realloc finalizer fuel { st with heap := RefCount.put st.heap x none } (finalizer x ++ acts)
          else
            runActions realloc finalizer fuel
              { st with heap := RefCount.put st.heap x (some { c with count := c.count - 1 }) } acts

/-- The loop of `flush_defer_queue` from index `i` on. The bound and the array are read again in every round. -/
def flushFrom (realloc : ℕ → Bool) (finalizer : ι → List (Action ι)) : ℕ → ℕ → State ι → Option (State ι)
  | 0, _, _ => none
  | fuel + 1, i, st =>
      if i < st.pending.length then
        match st.pending[i]?.join with
        | some x =>
            (runActions realloc finalizer (fuel + 1) { st with released := st.released ++ [x] } [.release x]).bind
              fun st => flushFrom realloc finalizer fuel (i + 1) { st with pending := st.pending.set i none }
        | none => flushFrom realloc finalizer fuel (i + 1) st
      else some { st with pending := [] }

/-- `flush_defer_queue`. -/
def flushDeferQueue (realloc : ℕ → Bool) (finalizer : ι → List (Action ι)) (fuel : ℕ) (st : State ι) :
    Option (State ι) :=
  flushFrom realloc finalizer fuel 0 st

/-! ### Deferring -/

variable {realloc : ℕ → Bool} {finalizer : ι → List (Action ι)} {st st' st'' : State ι} {new new' : List ι}

omit [DecidableEq ι] in
/-- What calls of `deferRelease` have done to the queue: `new` has been appended. -/
structure Extends (st st' : State ι) (new : List ι) : Prop where
  pending : st'.pending = st.pending ++ new.map some
  released : st'.released = st.released
  mono : st.calls <+: st'.calls
  failed : st.failed = true → st'.failed = true
  calls : st'.failed = false → st'.calls = st.calls ++ new
  room : st.pending.length ≤ st.capacity → st'.pending.length ≤ st'.capacity

omit [DecidableEq ι] in
theorem Extends.refl (st : State ι) : Extends st st [] where
  pending := by simp
  released := rfl
  mono := List.prefix_rfl
  failed h := h
  calls _ := by simp
  room h := h

omit [DecidableEq ι] in
theorem Extends.trans (h : Extends st st' new) (h' : Extends st' st'' new') : Extends st st'' (new ++ new') where
  pending := by rw [h'.pending, h.pending, List.append_assoc, List.map_append]
  released := h'.released.trans h.released
  mono := h.mono.trans h'.mono
  failed hf := h'.failed (h.failed hf)
  calls hf := by
    have hf' : st'.failed = false := by
      by_contra htrue
      rw [h'.failed (by simpa using htrue)] at hf
      exact absurd hf (by simp)
    rw [h'.calls hf, h.calls hf', List.append_assoc]
  room hr := h'.room (h.room hr)

omit [DecidableEq ι] in
/-- A call appends its object, unless an allocation fails. -/
theorem extends_deferRelease (realloc : ℕ → Bool) (st : State ι) (x : ι) :
    (deferRelease realloc st (some x)).heap = st.heap ∧
      ∃ new, new.Sublist [x] ∧ Extends st (deferRelease realloc st (some x)) new := by
  rw [deferRelease]
  split_ifs with hfull halloc
  · refine ⟨rfl, [x], List.Sublist.refl _, rfl, rfl, List.prefix_append _ _, id, fun _ => rfl, fun hr => ?_⟩
    simp only [State.push, List.length_append, List.length_singleton, newCap]
    split_ifs <;> omega
  · exact ⟨rfl, [], List.nil_sublist _, by simp, rfl, List.prefix_append _ _, fun _ => rfl,
      fun hf => absurd hf (by simp), id⟩
  · refine ⟨rfl, [x], List.Sublist.refl _, rfl, rfl, List.prefix_append _ _, id, fun _ => rfl, fun hr => ?_⟩
    simp only [State.push, List.length_append, List.length_singleton]
    omega

/-! ### The actions of finalizers -/

/-- A finalizer gives up exactly the references its object owns. -/
def Owns (finalizer : ι → List (Action ι)) (h : Heap ι) : Prop :=
  ∀ x c, h x = some c → c.owned = (finalizer x).map Action.target

variable {s : Finset ι} {kept : ι → ℕ} {rest : List ι}

/-- What is left to be done at most: the counts, and the actions of the finalizers to come. -/
def weight (s : Finset ι) (h : Heap ι) : ℕ := total s h + ∑ x ∈ s, (owned h x).length

theorem weight_put_none {h : Heap ι} {x : ι} {c : Cell ι} (hmem : x ∈ s) (hx : h x = some c) :
    weight s (RefCount.put h x none) + c.count + c.owned.length = weight s h := by
  have htotal := @total_put ι _ s h x hmem none
  have howned : ∑ y ∈ s, (owned (RefCount.put h x none) y).length + c.owned.length =
      ∑ y ∈ s, (owned h y).length := by
    have hself : (owned h x).length = c.owned.length := by
      rw [owned, hx]
      rfl
    rw [← Finset.sum_erase_add _ _ hmem, ← Finset.sum_erase_add _ (fun y => (owned h y).length) hmem, owned_put,
      if_pos rfl, hself]
    have hothers : ∑ y ∈ s.erase x, (owned (RefCount.put h x none) y).length =
        ∑ y ∈ s.erase x, (owned h y).length := by
      refine Finset.sum_congr rfl fun y hy => ?_
      rw [owned_put, if_neg (Finset.ne_of_mem_erase hy)]
    rw [hothers, Option.elim_none, List.length_nil, Nat.add_zero]
  rw [count, hx, Option.elim_some, Option.elim_none] at htotal
  simp only [weight]
  omega

theorem weight_put_count {h : Heap ι} {x : ι} {c : Cell ι} (hmem : x ∈ s) (hx : h x = some c)
    (hpos : 0 < c.count) :
    weight s (RefCount.put h x (some { c with count := c.count - 1 })) + 1 = weight s h := by
  have htotal := @total_put ι _ s h x hmem (some { c with count := c.count - 1 })
  rw [count, hx, Option.elim_some, Option.elim_some] at htotal
  dsimp only at htotal
  simp only [weight, owned_put_count hx]
  omega

theorem Owns.put_none {h : Heap ι} (ho : Owns finalizer h) (x : ι) : Owns finalizer (RefCount.put h x none) := by
  intro y c hy
  by_cases hyx : y = x
  · rw [hyx, put_self] at hy
    exact absurd hy (by simp)
  · rw [put_of_ne h hyx] at hy
    exact ho y c hy

theorem Owns.put_count {h : Heap ι} (ho : Owns finalizer h) {x : ι} {c : Cell ι} (hx : h x = some c) (n : ℕ) :
    Owns finalizer (RefCount.put h x (some { c with count := n })) := by
  intro y d hy
  by_cases hyx : y = x
  · rw [hyx, put_self] at hy
    rw [← Option.some.inj hy, hyx]
    exact ho x c hx
  · rw [put_of_ne h hyx] at hy
    exact ho y d hy

/-- **The actions of finalizers** end. They extend the queue, and each release takes something off the
weight. -/
theorem runActions_spec {fuel : ℕ} {acts : List (Action ι)}
    (hs : Sound s st.heap kept (acts.map Action.target ++ rest)) (ho : Owns finalizer st.heap)
    (hfuel : weight s st.heap + acts.length ≤ fuel) :
    ∃ st' new, runActions realloc finalizer fuel st acts = some st' ∧ Extends st st' new ∧
      Sound s st'.heap kept (rest ++ new) ∧ Owns finalizer st'.heap ∧ weight s st'.heap ≤ weight s st.heap ∧
      (∀ x acts', acts = .release x :: acts' → weight s st'.heap < weight s st.heap) := by
  induction fuel generalizing st acts rest with
  | zero =>
      cases acts with
      | nil => exact ⟨st, [], rfl, .refl st, by simpa using hs, ho, le_rfl, by simp⟩
      | cons a acts => exact absurd hfuel (by simp)
  | succ fuel ih =>
      cases acts with
      | nil => exact ⟨st, [], rfl, .refl st, by simpa using hs, ho, le_rfl, by simp⟩
      | cons a acts =>
          rw [List.length_cons] at hfuel
          cases a with
          | defer x =>
              obtain ⟨hheap, new, hsub, hext⟩ := extends_deferRelease realloc st x
              have hsound : Sound s (deferRelease realloc st (some x)).heap kept
                  (acts.map Action.target ++ (rest ++ new)) := by
                rw [hheap]
                refine ⟨hs.mem_of_isSome, hs.pos, fun y => ?_⟩
                have hcov := hs.covered y
                have hle := hsub.count_le y
                simp only [List.map_cons, Action.target, List.cons_append, List.count_append,
                  List.count_cons, List.count_nil] at hcov hle ⊢
                omega
              obtain ⟨st', new', hrun, hext', hsound', ho', hle, -⟩ :=
                ih hsound (hheap ▸ ho) (by rw [hheap]; omega)
              rw [hheap] at hle
              exact ⟨st', new ++ new', hrun, hext.trans hext', by rwa [← List.append_assoc], ho', hle, by simp⟩
          | release x =>
              have hs : Sound s st.heap kept (x :: (acts.map Action.target ++ rest)) := hs
              obtain ⟨c, hx, hpos⟩ := hs.exists_cell
              have hmem : x ∈ s := hs.mem_of_isSome x (by rw [hx]; rfl)
              rw [runActions, hx]
              dsimp only
              by_cases hc : c.count = 1
              · have hweight := weight_put_none hmem hx
                have hlen : c.owned.length = (finalizer x).length := by rw [ho x c hx, List.length_map]
                have hsound := hs.destroy hx hc
                rw [ho x c hx, ← List.append_assoc, ← List.map_append] at hsound
                obtain ⟨st', new, hrun, hext, hsound', ho', hle, -⟩ :=
                  @ih { st with heap := RefCount.put st.heap x none } _ _ hsound (ho.put_none x) (by
                    rw [List.length_append]
                    dsimp only
                    omega)
                rw [if_pos hc]
                dsimp only at hle
                exact ⟨st', new, hrun, ⟨hext.1, hext.2, hext.3, hext.4, hext.5, hext.6⟩, hsound', ho', by omega,
                  fun _ _ _ => by omega⟩
              · have hweight := weight_put_count hmem hx hpos
                obtain ⟨st', new, hrun, hext, hsound', ho', hle, -⟩ :=
                  @ih { st with heap := RefCount.put st.heap x (some { c with count := c.count - 1 }) } _ _
                    (hs.decrement hx hc) (ho.put_count hx _) (by
                      dsimp only
                      omega)
                rw [if_neg hc]
                dsimp only at hle
                exact ⟨st', new, hrun, ⟨hext.1, hext.2, hext.3, hext.4, hext.5, hext.6⟩, hsound', ho', by omega,
                  fun _ _ _ => by omega⟩

/-! ### The flush -/

/-- The state in the loop of the flush, in front of index `i`: the slots before it are cleared, those from it
on hold `rest`, and every call up to here has been released or is in `rest`. -/
structure Flushing (s : Finset ι) (kept : ι → ℕ) (finalizer : ι → List (Action ι)) (i : ℕ) (st : State ι)
    (rest : List ι) : Prop where
  sound : Sound s st.heap kept rest
  owns : Owns finalizer st.heap
  pending : st.pending = List.replicate i none ++ rest.map some
  room : st.pending.length ≤ st.capacity
  calls : st.failed = false → st.calls = st.released ++ rest

/-- One round: the object in slot `i` is released, and what its finalizer defers is appended. -/
theorem Flushing.round {i fuel : ℕ} {x : ι} (h : Flushing s kept finalizer i st (x :: rest))
    (hfuel : weight s st.heap + 1 ≤ fuel) :
    ∃ st' new,
      runActions realloc finalizer fuel { st with released := st.released ++ [x] } [.release x] = some st' ∧
      Flushing s kept finalizer (i + 1) { st' with pending := st'.pending.set i none } (rest ++ new) ∧
      weight s st'.heap < weight s st.heap ∧ st.calls <+: st'.calls ∧ (st.failed = true → st'.failed = true) ∧
      st'.released = st.released ++ [x] := by
  obtain ⟨st', new, hrun, hext, hsound, ho, -, hlt⟩ :=
    @runActions_spec ι _ realloc finalizer { st with released := st.released ++ [x] } s kept rest fuel [.release x]
      h.sound h.owns hfuel
  have hpending : st'.pending.set i none = List.replicate (i + 1) none ++ (rest ++ new).map some := by
    rw [hext.pending, h.pending, List.append_assoc, List.set_append_right (h := by simp)]
    simp [List.replicate_succ', List.append_assoc]
  refine ⟨st', new, hrun, ⟨hsound, ho, hpending, ?_, fun hf => ?_⟩, hlt x [] rfl, hext.mono, hext.failed,
    hext.released⟩
  · rw [List.length_set]
    exact hext.room h.room
  · have hbefore : st.failed = false := by
      by_contra htrue
      have hstill := hext.failed (by simpa using htrue)
      rw [hstill] at hf
      exact absurd hf (by simp)
    have hcalls := hext.calls hf
    dsimp only at hcalls ⊢
    rw [hcalls, hext.released, h.calls hbefore]
    simp

/-- **The flush** ends with an empty queue, and all calls up to its end have been released. -/
theorem flushFrom_spec {i fuel : ℕ} (h : Flushing s kept finalizer i st rest)
    (hfuel : weight s st.heap + 1 ≤ fuel) :
    ∃ st', flushFrom realloc finalizer fuel i st = some st' ∧ Flushing s kept finalizer 0 st' [] ∧
      st.calls <+: st'.calls ∧ st.released <+: st'.released ∧ (st.failed = true → st'.failed = true) := by
  induction fuel generalizing i st rest with
  | zero => exact absurd hfuel (by omega)
  | succ fuel ih =>
      rw [flushFrom]
      have hlen : st.pending.length = i + rest.length := by rw [h.pending]; simp
      cases rest with
      | nil =>
          rw [List.length_nil] at hlen
          rw [if_neg (by omega)]
          exact ⟨_, rfl, ⟨h.sound, h.owns, rfl, Nat.zero_le _, h.calls⟩, List.prefix_rfl, List.prefix_rfl, id⟩
      | cons x rest =>
          have hslot : st.pending[i]?.join = some x := by
            rw [h.pending, List.getElem?_append_right (by simp)]
            simp
          obtain ⟨st₁, new, hrun, hnext, hlt, hcalls, hfailed, hreleased⟩ := h.round hfuel
          obtain ⟨st', hflush, hend, hcalls', hreleased', hfailed'⟩ := ih hnext (by dsimp only; omega)
          rw [if_pos (by rw [hlen, List.length_cons]; omega), hslot]
          dsimp only
          rw [hrun, Option.bind_some]
          refine ⟨st', hflush, hend, hcalls.trans hcalls', ?_, hfailed' ∘ hfailed⟩
          dsimp only at hreleased'
          rw [hreleased] at hreleased'
          exact (List.prefix_append _ _).trans hreleased'

/-! ### Runs -/

/-- The objects that are waiting to be released. -/
def State.objects (st : State ι) : List ι := st.pending.reduceOption

omit [DecidableEq ι] in
theorem objects_eq (hp : st.pending = rest.map some) : st.objects = rest := by
  rw [State.objects, hp, List.reduceOption, List.filterMap_map]
  exact List.filterMap_some

/-- The loop as `event_backend_init` leaves it. -/
def State.initial : State ι where
  heap _ := none
  pending := []
  capacity := 64
  calls := []
  released := []
  failed := false

/-- What can happen next. Whatever else the program does to its objects, it keeps the references in the queue
and the finalizers apart from its own, and it defers a reference that it has. -/
inductive Step (realloc : ℕ → Bool) (finalizer : ι → List (Action ι)) (st : State ι) : State ι → Prop
  | program (s : Finset ι) (kept : ι → ℕ) (h : Heap ι) : Sound s h kept st.objects → Owns finalizer h →
      Step realloc finalizer st { st with heap := h }
  | defer (s : Finset ι) (kept : ι → ℕ) (obj : Option ι) : Sound s st.heap kept (st.objects ++ obj.toList) →
      Step realloc finalizer st (deferRelease realloc st obj)
  | flush (fuel : ℕ) (st' : State ι) : flushDeferQueue realloc finalizer fuel st = some st' →
      Step realloc finalizer st st'

/-- The states that any sequence of calls and flushes leads to. -/
inductive Reachable (realloc : ℕ → Bool) (finalizer : ι → List (Action ι)) : State ι → Prop
  | initial : Reachable realloc finalizer .initial
  | step {st st' : State ι} : Reachable realloc finalizer st → Step realloc finalizer st st' →
      Reachable realloc finalizer st'

/-- A flush has one outcome, whatever the fuel. -/
theorem runActions_mono {fuel fuel' : ℕ} {acts : List (Action ι)} (hle : fuel ≤ fuel')
    (hrun : runActions realloc finalizer fuel st acts = some st') :
    runActions realloc finalizer fuel' st acts = some st' := by
  induction fuel generalizing fuel' st acts with
  | zero =>
      cases acts with
      | nil => simpa [runActions] using hrun
      | cons a acts => exact absurd hrun (by simp [runActions])
  | succ fuel ih =>
      obtain ⟨fuel', rfl⟩ : ∃ k, fuel' = k + 1 := ⟨fuel' - 1, by omega⟩
      cases acts with
      | nil => simpa [runActions] using hrun
      | cons a acts =>
          cases a with
          | defer x =>
              rw [runActions] at hrun ⊢
              exact ih (by omega) hrun
          | release x =>
              rw [runActions] at hrun ⊢
              cases hx : st.heap x with
              | none => simp [hx] at hrun
              | some c =>
                  simp only [hx] at hrun ⊢
                  split_ifs at hrun ⊢
                  · exact ih (by omega) hrun
                  · exact ih (by omega) hrun

theorem flushFrom_mono {fuel fuel' i : ℕ} (hle : fuel ≤ fuel')
    (hrun : flushFrom realloc finalizer fuel i st = some st') :
    flushFrom realloc finalizer fuel' i st = some st' := by
  induction fuel generalizing fuel' i st with
  | zero => exact absurd hrun (by simp [flushFrom])
  | succ fuel ih =>
      obtain ⟨fuel', rfl⟩ : ∃ k, fuel' = k + 1 := ⟨fuel' - 1, by omega⟩
      rw [flushFrom] at hrun ⊢
      split_ifs at hrun ⊢
      · cases hslot : st.pending[i]?.join with
        | none =>
            simp only [hslot] at hrun ⊢
            exact ih (by omega) hrun
        | some x =>
            simp only [hslot] at hrun ⊢
            obtain ⟨st₁, hfirst, hrest⟩ := Option.bind_eq_some_iff.mp hrun
            rw [runActions_mono hle hfirst, Option.bind_some]
            exact ih (by omega) hrest
      · exact hrun

/-- Every reachable state is one of a loop that has not begun to flush. -/
theorem Reachable.flushing (h : Reachable realloc finalizer st) :
    ∃ s kept rest, Flushing s kept finalizer 0 st rest := by
  induction h with
  | initial =>
      refine ⟨∅, fun _ => 0, [],
        ⟨⟨by simp [State.initial], by simp [State.initial], ?_⟩, ?_, rfl, Nat.zero_le _, fun _ => rfl⟩⟩
      · intro x
        simp [refs]
      · intro x c hx
        exact absurd hx (by simp [State.initial])
  | @step st₀ st₁ _ hstep ih =>
      obtain ⟨s, kept, rest, hinv⟩ := ih
      have hobjects := objects_eq (by simpa using hinv.pending)
      cases hstep with
      | program s' kept' h hsound ho =>
          rw [hobjects] at hsound
          exact ⟨s', kept', rest, hsound, ho, hinv.pending, hinv.room, hinv.calls⟩
      | defer s' kept' obj hsound =>
          rw [hobjects] at hsound
          cases obj with
          | none => exact ⟨s, kept, rest, hinv⟩
          | some x =>
              obtain ⟨hheap, new, hsub, hext⟩ := extends_deferRelease realloc st₀ x
              refine ⟨s', kept', rest ++ new, ?_, hheap ▸ hinv.owns, ?_, hext.room hinv.room, fun hf => ?_⟩
              · rw [hheap]
                refine ⟨hsound.mem_of_isSome, hsound.pos, fun y => ?_⟩
                have hcov := hsound.covered y
                have hle := hsub.count_le y
                rw [Option.toList_some, List.count_append] at hcov
                rw [List.count_append]
                omega
              · rw [hext.pending, hinv.pending]
                simp
              · have hbefore := Bool.eq_false_iff.mpr fun htrue => by
                  rw [hext.failed htrue] at hf
                  exact absurd hf (by simp)
                rw [hext.calls hf, hext.released, hinv.calls hbefore, List.append_assoc]
      | flush fuel _ hflush =>
          obtain ⟨st₂, hrun, hend, -⟩ :=
            @flushFrom_spec ι _ realloc finalizer st₀ s kept rest 0 _ hinv (le_max_right fuel _)
          have hsame := flushFrom_mono (le_max_left fuel (weight s st₀.heap + 1)) hflush
          rw [hrun] at hsame
          rw [← Option.some.inj hsame]
          exact ⟨s, kept, [], hend⟩

/-- **Every call is released once.** In every state that calls and flushes lead to, the objects of all calls,
in their order, are those that have been released and those that wait. A flush ends, with an empty queue, and
when no allocation has failed it has released the objects of all calls up to its end, those that finalizers
have made meanwhile included. -/
theorem every_call_released (h : Reachable realloc finalizer st) :
    (st.failed = false → st.calls = st.released ++ st.objects) ∧
      ∃ n, ∀ fuel ≥ n, ∃ st', flushDeferQueue realloc finalizer fuel st = some st' ∧ st'.pending = [] ∧
        st.calls <+: st'.calls ∧ st.released <+: st'.released ∧
        (st'.failed = false → st'.released = st'.calls) := by
  obtain ⟨s, kept, rest, hinv⟩ := h.flushing
  refine ⟨fun hf => ?_, weight s st.heap + 1, fun fuel hfuel => ?_⟩
  · rw [objects_eq (by simpa using hinv.pending)]
    exact hinv.calls hf
  · obtain ⟨st', hrun, hend, hcalls, hreleased, -⟩ := flushFrom_spec hinv hfuel
    exact ⟨st', hrun, by simpa using hend.pending, hcalls, hreleased, fun hf => by simpa using (hend.calls hf).symm⟩

/-- Two objects; the finalizer of the first one defers its reference to the second. -/
def sampleHeap : Heap ℕ := fun x => if x = 1 then some ⟨1, [2]⟩ else if x = 2 then some ⟨1, []⟩ else none

def sampleFinalizer (x : ℕ) : List (Action ℕ) := if x = 1 then [.defer 2] else []

/-- The first object is deferred. -/
def sampleState : State ℕ := deferRelease (fun _ => true) { State.initial with heap := sampleHeap } (some 1)

theorem reachable_sample : Reachable (fun _ => true) sampleFinalizer sampleState := by
  have hsound : ∀ work : List ℕ, (∀ x, work.count x ≤ if x = 1 then 1 else 0) →
      Sound {1, 2} sampleHeap (fun _ => 0) work := by
    intro work hwork
    refine ⟨fun x hx => ?_, fun x hx => ?_, fun x => ?_⟩
    · simp only [sampleHeap] at hx
      split_ifs at hx <;> simp_all
    · simp only [sampleHeap] at hx
      simp only [count, sampleHeap]
      split_ifs at hx ⊢ <;> simp_all
    · have hle := hwork x
      simp only [refs, count, owned, sampleHeap]
      split_ifs at hle ⊢ <;> simp_all [List.count_cons]
      omega
  refine .step (.step .initial (.program {1, 2} (fun _ => 0) sampleHeap (hsound _ fun x => ?_) fun x c hx => ?_))
    (.defer {1, 2} (fun _ => 0) (some 1) (hsound _ fun x => ?_))
  · simp [State.objects, State.initial]
  · simp only [sampleHeap] at hx
    split_ifs at hx with h1 h2
    · rw [← Option.some.inj hx, h1]
      rfl
    · rw [← Option.some.inj hx, h2]
      rfl
  · simp only [State.objects, State.initial, Option.toList_some, List.reduceOption_nil, List.nil_append,
      List.count_singleton]
    split_ifs <;> simp_all

/-- The object that the finalizer defers is released by the same flush. -/
theorem every_call_released_sample :
    (sampleState.failed = false → sampleState.calls = sampleState.released ++ sampleState.objects) ∧
      ∃ n, ∀ fuel ≥ n, ∃ st', flushDeferQueue (fun _ => true) sampleFinalizer fuel sampleState = some st' ∧
        st'.pending = [] ∧ sampleState.calls <+: st'.calls ∧ sampleState.released <+: st'.released ∧
        (st'.failed = false → st'.released = st'.calls) :=
  every_call_released reachable_sample

end DeferQueue
