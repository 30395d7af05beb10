import LibCore.ArrayList

/-!
# The `ThreadPool`

`threadpool.c`: any number of threads submit tasks, the workers take them from one queue, and `shutdown` sets
`stop` and joins the workers. Every critical section is one step; a worker in `pthread_cond_wait` may wake at
any time, and tests everything again when it has the lock. The queue is the growing array of `queue.c`.

A task is the number of its `submit` call. `shutdown` is called by threads that are no workers; a call that
finds `stop` set returns at once. The state carries logs of what the workers do.

## Main definitions

* `Pool`, `exec`, `run`: the pool and the steps of its threads.
* `Tasks`: where the tasks are that have been dequeued.

## Main results

* `Tasks.idle`, `Tasks.dequeue`, `Tasks.start`, `Tasks.finish`: what the moves of a worker keep.
-/

namespace ThreadPool

/-- Where a worker is in `worker_routine`: in front of the lock, in the wait, with a task in front of the
semaphore, in the call of the task's function, or at its end. -/
inductive Worker
  | ready
  | waiting
  | holding (task : ℕ)
  | running (task : ℕ)
  | exited
deriving DecidableEq

/-- The task a worker has dequeued and not yet finished. -/
def Worker.hand : Worker → Option ℕ
  | .holding t => some t
  | .running t => some t
  | _ => none

/-- The pool. -/
structure Pool where
  numThreads : ℕ
  workers : ℕ → Worker
  taskQueue : ArrayList ℕ
  stop : Bool
  /-- The value of `resourceSem`, if there is one. -/
  resourceSem : Option ℕ
  /-- How many workers the call of `shutdown` that has set `stop` has joined. -/
  joined : Option ℕ
  /-- The number of `submit` calls, and what it was when `stop` was set. -/
  submitted : ℕ
  submittedAtStop : ℕ
  dequeued : List ℕ
  started : List ℕ
  completed : List ℕ
  /-- Whether the queue could not be enlarged. -/
  failed : Bool

/-- `new_ThreadPool`. -/
def newThreadPool (numThreads : ℕ) (maxResources : ℤ) : Pool where
  numThreads := numThreads
  workers w := if w < numThreads then .ready else .exited
  taskQueue := ArrayList.new 1024
  stop := false
  resourceSem := if 0 < maxResources then some maxResources.toNat else none
  joined := none
  submitted := 0
  submittedAtStop := 0
  dequeued := []
  started := []
  completed := []
  failed := false

/-- The steps of the threads. -/
inductive Op
  | submit
  | enter (w : ℕ)
  | wake (w : ℕ)
  | acquire (w : ℕ)
  | finish (w : ℕ)
  | shutdown
  | join
deriving DecidableEq

def Pool.setWorker (p : Pool) (w : ℕ) (x : Worker) : Pool :=
  { p with workers := Function.update p.workers w x }

/-- The critical section of `worker_routine`. -/
def Pool.enter (p : Pool) (w : ℕ) : Pool :=
  if p.taskQueue.size = 0 ∧ p.stop = false then p.setWorker w .waiting
  else if p.stop = true ∧ p.taskQueue.size = 0 then p.setWorker w .exited
  else
    match p.taskQueue.detach 0 with
    | (some t, q) => { p.setWorker w (.holding t) with taskQueue := q, dequeued := p.dequeued ++ [t] }
    | (none, q) => { p with taskQueue := q }

/-- One step; `none` when the thread is somewhere else. `alloc` says which capacities can be allocated in which
`submit` call. -/
def exec (alloc : ℕ → ℕ → Bool) (p : Pool) : Op → Option Pool
  | .submit =>
      some { p with
        taskQueue := (p.taskQueue.add (alloc p.submitted) p.submitted).2
        submitted := p.submitted + 1
        failed := p.failed || !(p.taskQueue.add (alloc p.submitted) p.submitted).1 }
  | .enter w => if p.workers w = .ready then some (p.enter w) else none
  | .wake w => if p.workers w = .waiting then some (p.setWorker w .ready) else none
  | .acquire w =>
      match p.workers w with
      | .holding t =>
          if p.resourceSem = some 0 then none
          else some { p.setWorker w (.running t) with
            resourceSem := p.resourceSem.map (· - 1)
            started := p.started ++ [t] }
      | _ => none
  | .finish w =>
      match p.workers w with
      | .running t =>
          some { p.setWorker w .ready with
            resourceSem := p.resourceSem.map (· + 1)
            completed := p.completed ++ [t] }
      | _ => none
  | .shutdown =>
      if p.stop = true then some p
      else some { p with stop := true, joined := some 0, submittedAtStop := p.submitted }
  | .join =>
      match p.joined with
      | some k => if k < p.numThreads ∧ p.workers k = .exited then some { p with joined := some (k + 1) } else none
      | none => none

/-- A sequence of steps, in any order of the threads. -/
def run (alloc : ℕ → ℕ → Bool) (p : Pool) (ops : List Op) : Option Pool := ops.foldlM (exec alloc) p

/-- The call of `shutdown` that has set `stop` has joined all workers. -/
def Pool.Returned (p : Pool) : Prop := p.joined = some p.numThreads

/-! ### The tasks -/

/-- The tasks below `d` have been dequeued: each of them is in the hand of one worker or completed, and it has
been started just when it is running or completed. -/
structure Tasks (workers : ℕ → Worker) (d : ℕ) (started completed : List ℕ) : Prop where
  unique : ∀ w w' t, (workers w).hand = some t → (workers w').hand = some t → w = w'
  hand_lt : ∀ w t, (workers w).hand = some t → t < d ∧ t ∉ completed
  done : ∀ t < d, t ∈ completed ∨ ∃ w, (workers w).hand = some t
  completed_lt : ∀ t ∈ completed, t < d
  completed_nodup : completed.Nodup
  mem_started : ∀ t, t ∈ started ↔ t ∈ completed ∨ ∃ w, workers w = .running t
  started_nodup : started.Nodup

variable {workers : ℕ → Worker} {d : ℕ} {started completed : List ℕ} {w t : ℕ}

theorem hand_update (workers : ℕ → Worker) (w : ℕ) (x : Worker) (v : ℕ) :
    (Function.update workers w x v).hand = if v = w then x.hand else (workers v).hand := by
  by_cases hv : v = w
  · rw [hv, Function.update_self, if_pos rfl]
  · rw [Function.update_of_ne hv, if_neg hv]

/-- A running worker has its task in hand. -/
theorem hand_of_running (h : workers w = .running t) : (workers w).hand = some t := by
  rw [h]
  rfl

/-- A worker without a task moves on without one. -/
theorem Tasks.idle (h : Tasks workers d started completed) {x : Worker} (hw : (workers w).hand = none)
    (hx : x.hand = none) : Tasks (Function.update workers w x) d started completed := by
  have hhand : ∀ v, (Function.update workers w x v).hand = (workers v).hand := by
    intro v
    rw [hand_update]
    split_ifs with hv
    · rw [hx, hv, hw]
    · rfl
  have hrunning : ∀ t, (∃ v, Function.update workers w x v = .running t) ↔ ∃ v, workers v = .running t := by
    intro t
    refine exists_congr fun v => ?_
    by_cases hv : v = w
    · subst hv
      rw [Function.update_self]
      exact iff_of_false (fun h => by rw [h] at hx; exact absurd hx (by simp [Worker.hand]))
        fun h => by rw [h] at hw; exact absurd hw (by simp [Worker.hand])
    · rw [Function.update_of_ne hv]
  refine ⟨fun v v' t hv hv' => ?_, fun v t hv => ?_, fun t ht => ?_, h.completed_lt, h.completed_nodup,
    fun t => ?_, h.started_nodup⟩
  · rw [hhand] at hv hv'
    exact h.unique v v' t hv hv'
  · rw [hhand] at hv
    exact h.hand_lt v t hv
  · simpa only [hhand] using h.done t ht
  · rw [h.mem_started, hrunning]

/-- The next task is dequeued. -/
theorem Tasks.dequeue (h : Tasks workers d started completed) (hw : (workers w).hand = none) :
    Tasks (Function.update workers w (.holding d)) (d + 1) started completed := by
  have hfresh : ∀ v, (workers v).hand ≠ some d := fun v hv => absurd (h.hand_lt v d hv).1 (by omega)
  refine ⟨fun v v' t hv hv' => ?_, fun v t hv => ?_, fun t ht => ?_,
    fun t ht => Nat.lt_succ_of_lt (h.completed_lt t ht), h.completed_nodup, fun t => ?_, h.started_nodup⟩
  · rw [hand_update] at hv hv'
    split_ifs at hv hv' with h1 h2 h3
    · rw [h1, h2]
    · exact absurd (hv.trans hv'.symm |>.symm) (by simpa [Worker.hand] using hfresh v')
    · exact absurd (hv'.trans hv.symm |>.symm) (by simpa [Worker.hand] using hfresh v)
    · exact h.unique v v' t hv hv'
  · rw [hand_update] at hv
    split_ifs at hv with hvw
    · obtain rfl : d = t := by simpa [Worker.hand] using hv
      exact ⟨Nat.lt_succ_self d, fun hmem => absurd (h.completed_lt d hmem) (Nat.lt_irrefl d)⟩
    · exact ⟨Nat.lt_succ_of_lt (h.hand_lt v t hv).1, (h.hand_lt v t hv).2⟩
  · rcases Nat.lt_succ_iff_lt_or_eq.mp ht with ht | rfl
    · rcases h.done t ht with hmem | ⟨v, hv⟩
      · exact Or.inl hmem
      · refine Or.inr ⟨v, ?_⟩
        rw [hand_update, if_neg, hv]
        rintro rfl
        rw [hw] at hv
        exact absurd hv (by simp)
    · exact Or.inr ⟨w, by rw [hand_update, if_pos rfl]; rfl⟩
  · rw [h.mem_started]
    refine or_congr_right (exists_congr fun v => ?_)
    by_cases hv : v = w
    · subst hv
      rw [Function.update_self]
      exact iff_of_false (fun h => by rw [h] at hw; exact absurd hw (by simp [Worker.hand])) (by simp)
    · rw [Function.update_of_ne hv]

/-- A worker that has its task in hand starts it. -/
theorem Tasks.start (h : Tasks workers d started completed) (hw : workers w = .holding t) :
    Tasks (Function.update workers w (.running t)) d (started ++ [t]) completed := by
  have hhand : ∀ v, (Function.update workers w (.running t) v).hand = (workers v).hand := by
    intro v
    rw [hand_update]
    split_ifs with hv
    · rw [hv, hw]
      rfl
    · rfl
  have hmine : (workers w).hand = some t := by
    rw [hw]
    rfl
  have hfresh : t ∉ started := by
    rw [h.mem_started]
    rintro (hmem | ⟨v, hv⟩)
    · exact (h.hand_lt w t hmine).2 hmem
    · obtain rfl := h.unique w v t hmine (hand_of_running hv)
      rw [hw] at hv
      exact absurd hv (by simp)
  refine ⟨fun v v' u hv hv' => ?_, fun v u hv => ?_, fun u hu => ?_, h.completed_lt, h.completed_nodup,
    fun u => ?_, List.Nodup.append h.started_nodup (List.nodup_singleton t) (by simpa using hfresh)⟩
  · rw [hhand] at hv hv'
    exact h.unique v v' u hv hv'
  · rw [hhand] at hv
    exact h.hand_lt v u hv
  · simpa only [hhand] using h.done u hu
  · rw [List.mem_append, List.mem_singleton, h.mem_started]
    constructor
    · rintro ((hmem | ⟨v, hv⟩) | rfl)
      · exact Or.inl hmem
      · refine Or.inr ⟨v, ?_⟩
        rw [Function.update_of_ne, hv]
        rintro rfl
        rw [hw] at hv
        exact absurd hv (by simp)
      · exact Or.inr ⟨w, Function.update_self _ _ _⟩
    · rintro (hmem | ⟨v, hv⟩)
      · exact Or.inl (Or.inl hmem)
      · by_cases hvw : v = w
        · rw [hvw, Function.update_self, Worker.running.injEq] at hv
          exact Or.inr hv.symm
        · rw [Function.update_of_ne hvw] at hv
          exact Or.inl (Or.inr ⟨v, hv⟩)

/-- A worker has finished its task. -/
theorem Tasks.finish (h : Tasks workers d started completed) (hw : workers w = .running t) :
    Tasks (Function.update workers w .ready) d started (completed ++ [t]) := by
  have hmine := h.hand_lt w t (hand_of_running hw)
  have hhand : ∀ v u, (Function.update workers w .ready v).hand = some u → v ≠ w ∧ (workers v).hand = some u := by
    intro v u hv
    rw [hand_update] at hv
    split_ifs at hv with hvw
    · exact absurd hv (by simp [Worker.hand])
    · exact ⟨hvw, hv⟩
  refine ⟨fun v v' u hv hv' => h.unique v v' u (hhand v u hv).2 (hhand v' u hv').2, fun v u hv => ?_,
    fun u hu => ?_, fun u hu => ?_,
    List.Nodup.append h.completed_nodup (List.nodup_singleton t) (by simpa using hmine.2), fun u => ?_,
    h.started_nodup⟩
  · obtain ⟨hvw, hv⟩ := hhand v u hv
    refine ⟨(h.hand_lt v u hv).1, fun hmem => ?_⟩
    rcases List.mem_append.mp hmem with hmem | hmem
    · exact (h.hand_lt v u hv).2 hmem
    · obtain rfl := List.mem_singleton.mp hmem
      exact hvw (h.unique v w u hv (hand_of_running hw))
  · rcases h.done u hu with hmem | ⟨v, hv⟩
    · exact Or.inl (List.mem_append_left _ hmem)
    · by_cases hvw : v = w
      · rw [hvw, hand_of_running hw, Option.some.injEq] at hv
        exact Or.inl (by simp [hv])
      · exact Or.inr ⟨v, by rwa [hand_update, if_neg hvw]⟩
  · rcases List.mem_append.mp hu with hu | hu
    · exact h.completed_lt u hu
    · exact List.mem_singleton.mp hu ▸ hmine.1
  · rw [h.mem_started, List.mem_append, List.mem_singleton]
    constructor
    · rintro (hmem | ⟨v, hv⟩)
      · exact Or.inl (Or.inl hmem)
      · by_cases hvw : v = w
        · rw [hvw, hw, Worker.running.injEq] at hv
          exact Or.inl (Or.inr hv.symm)
        · exact Or.inr ⟨v, by rwa [Function.update_of_ne hvw]⟩
    · rintro ((hmem | rfl) | ⟨v, hv⟩)
      · exact Or.inl hmem
      · exact Or.inr ⟨w, hw⟩
      · by_cases hvw : v = w
        · rw [hvw, Function.update_self] at hv
          exact absurd hv (by simp)
        · rw [Function.update_of_ne hvw] at hv
          exact Or.inr ⟨v, hv⟩

end ThreadPool
