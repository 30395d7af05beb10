import LibCore.ThreadPool

/-!
# Runs of the `ThreadPool`

The invariant of the pool over any order of the steps of its threads. The queue holds the tasks that have been
submitted and not yet dequeued, in their order, so a worker that leaves has seen every task that was submitted
before `stop` was set dequeued.

## Main definitions

* `Inv`: the invariant.

## Main results

* `Inv.step`: one step keeps the invariant.
* `Inv.progress`: once `stop` is set there is a step, and every step but `submit` leads on.
* `executed_exactly_once`: the tasks over whole runs.
-/

namespace ThreadPool

/-- Whether a worker is in the call of a task's function, as a number. -/
def Worker.runs : Worker → ℕ
  | .running _ => 1
  | _ => 0

@[simp] theorem runs_ready : Worker.ready.runs = 0 := rfl

@[simp] theorem runs_exited : Worker.exited.runs = 0 := rfl

@[simp] theorem runs_holding (t : ℕ) : (Worker.holding t).runs = 0 := rfl

@[simp] theorem runs_running (t : ℕ) : (Worker.running t).runs = 1 := rfl

/-- What holds in every state. -/
structure Inv (p : Pool) : Prop where
  queue : p.taskQueue.Represents (List.range' p.dequeued.length (p.submitted - p.dequeued.length))
  length_le : p.dequeued.length ≤ p.submitted
  dequeued_eq : p.dequeued = List.range p.dequeued.length
  tasks : Tasks p.workers p.dequeued.length p.started p.completed
  outside : ∀ w, p.numThreads ≤ w → p.workers w = .exited
  atStop_le : p.submittedAtStop ≤ p.submitted
  exited : ∀ w < p.numThreads, p.workers w = .exited → p.stop = true ∧ p.submittedAtStop ≤ p.dequeued.length
  joined_le : ∀ k, p.joined = some k → k ≤ p.numThreads ∧ ∀ w < k, p.workers w = .exited
  stop_eq : p.joined.isSome = p.stop
  permits : ∀ k, p.resourceSem = some k → 0 < k + ∑ w ∈ Finset.range p.numThreads, (p.workers w).runs

variable {p p' : Pool} {alloc : ℕ → ℕ → Bool} {op : Op} {w : ℕ}

theorem sum_update (f : Worker → ℕ) (workers : ℕ → Worker) {n w : ℕ} (hw : w < n) (x : Worker) :
    ∑ v ∈ Finset.range n, f (Function.update workers w x v) + f (workers w) =
      ∑ v ∈ Finset.range n, f (workers v) + f x := by
  have hmem := Finset.mem_range.mpr hw
  have herase : ∑ v ∈ (Finset.range n).erase w, f (Function.update workers w x v) =
      ∑ v ∈ (Finset.range n).erase w, f (workers v) := by
    refine Finset.sum_congr rfl fun v hv => ?_
    rw [Function.update_of_ne (Finset.ne_of_mem_erase hv)]
  rw [← Finset.sum_erase_add _ _ hmem, ← Finset.sum_erase_add _ (fun v => f (workers v)) hmem, herase,
    Function.update_self]
  omega

theorem Inv.lt_of_ne_exited (h : Inv p) (hw : p.workers w ≠ .exited) : w < p.numThreads := by
  by_contra hge
  exact hw (h.outside w (not_lt.mp hge))

/-- A new pool. -/
theorem inv_new (numThreads : ℕ) (maxResources : ℤ) : Inv (newThreadPool numThreads maxResources) where
  queue := ArrayList.represents_new 1024
  length_le := le_rfl
  dequeued_eq := rfl
  tasks := by
    have hhand : ∀ w, ((newThreadPool numThreads maxResources).workers w).hand = none := by
      intro w
      simp only [newThreadPool]
      split_ifs <;> rfl
    refine ⟨fun w w' t ht => ?_, fun w t ht => ?_, fun t ht => absurd ht (Nat.not_lt_zero t),
      fun t ht => absurd ht List.not_mem_nil, List.nodup_nil, fun t => ?_, List.nodup_nil⟩
    · rw [hhand] at ht
      exact absurd ht (by simp)
    · rw [hhand] at ht
      exact absurd ht (by simp)
    · refine iff_of_false List.not_mem_nil ?_
      rintro (hmem | ⟨w, hw⟩)
      · exact List.not_mem_nil hmem
      · have hnone := hhand w
        rw [hand_of_running hw] at hnone
        exact absurd hnone (by simp)
  outside w hw := if_neg (not_lt.mpr hw)
  atStop_le := le_rfl
  exited w hw hexited := by
    have hready : (newThreadPool numThreads maxResources).workers w = .ready := if_pos hw
    rw [hready] at hexited
    exact absurd hexited (by simp)
  joined_le k hk := absurd hk (by simp [newThreadPool])
  stop_eq := rfl
  permits k hk := by
    simp only [newThreadPool] at hk
    split_ifs at hk with hpos
    have hk := Option.some.inj hk
    omega

/-- A worker that has not left and does not leave. -/
theorem exited_update_iff {workers : ℕ → Worker} {x : Worker} (hw : workers w ≠ .exited) (hx : x ≠ .exited) (v : ℕ) :
    Function.update workers w x v = .exited ↔ workers v = .exited := by
  by_cases hv : v = w
  · rw [hv, Function.update_self]
    exact iff_of_false hx hw
  · rw [Function.update_of_ne hv]

/-- What a move of a worker that does not leave has to keep, given that it keeps the tasks, the queue and the
permits. -/
theorem Inv.move (h : Inv p) {x : Worker} (hw : p.workers w ≠ .exited) (hx : x ≠ .exited)
    {q : ArrayList ℕ} {sem : Option ℕ} {dequeued started completed : List ℕ}
    (hqueue : q.Represents (List.range' dequeued.length (p.submitted - dequeued.length)))
    (hlen : p.dequeued.length ≤ dequeued.length ∧ dequeued.length ≤ p.submitted)
    (hdequeued : dequeued = List.range dequeued.length)
    (htasks : Tasks (Function.update p.workers w x) dequeued.length started completed)
    (hpermits : ∀ k, sem = some k →
      0 < k + ∑ v ∈ Finset.range p.numThreads, (Function.update p.workers w x v).runs) :
    Inv { p.setWorker w x with
      taskQueue := q, resourceSem := sem, dequeued := dequeued, started := started, completed := completed } where
  queue := hqueue
  length_le := hlen.2
  dequeued_eq := hdequeued
  tasks := htasks
  outside v hv := (exited_update_iff hw hx v).mpr (h.outside v hv)
  atStop_le := h.atStop_le
  exited v hv hexited :=
    ⟨(h.exited v hv ((exited_update_iff hw hx v).mp hexited)).1,
      (h.exited v hv ((exited_update_iff hw hx v).mp hexited)).2.trans hlen.1⟩
  joined_le k hk :=
    ⟨(h.joined_le k hk).1, fun v hv => (exited_update_iff hw hx v).mpr ((h.joined_le k hk).2 v hv)⟩
  stop_eq := h.stop_eq
  permits := hpermits

/-- A worker that is ready or waits moves on without a task. -/
theorem Inv.idle (h : Inv p) {x : Worker} (hw : p.workers w = .ready ∨ p.workers w = .waiting)
    (hx : x = .ready ∨ x = .waiting) : Inv (p.setWorker w x) := by
  have hnot : p.workers w ≠ .exited := by rcases hw with hw | hw <;> simp [hw]
  have hfree : (p.workers w).hand = none := by rcases hw with hw | hw <;> rw [hw] <;> rfl
  have hruns : (p.workers w).runs = 0 := by rcases hw with hw | hw <;> rw [hw] <;> rfl
  have hxhand : x.hand = none := by rcases hx with rfl | rfl <;> rfl
  have hxruns : x.runs = 0 := by rcases hx with rfl | rfl <;> rfl
  have hsum := sum_update Worker.runs p.workers (h.lt_of_ne_exited hnot) x
  exact h.move hnot (by rcases hx with rfl | rfl <;> simp) h.queue ⟨le_rfl, h.length_le⟩ h.dequeued_eq
    (h.tasks.idle hfree hxhand) fun k hk => by
      have hpos := h.permits k hk
      omega

/-- A worker that leaves: `stop` is set, and nothing is left in the queue. -/
theorem Inv.leave (h : Inv p) (hw : p.workers w = .ready) (hstop : p.stop = true) (hempty : p.taskQueue.size = 0) :
    Inv (p.setWorker w .exited) := by
  have hlt : w < p.numThreads := h.lt_of_ne_exited (by simp [hw])
  have hall : p.dequeued.length = p.submitted := by
    have hsize := h.queue.size_eq
    rw [hempty, List.length_range'] at hsize
    have hle := h.length_le
    omega
  have hsum := sum_update Worker.runs p.workers hlt .exited
  rw [hw] at hsum
  refine ⟨h.queue, h.length_le, h.dequeued_eq, h.tasks.idle (by rw [hw]; rfl) rfl, fun v hv => ?_, h.atStop_le,
    fun v hv hexited => ⟨hstop, ?_⟩, fun k hk => ⟨(h.joined_le k hk).1, fun v hv => ?_⟩, h.stop_eq, fun k hk => ?_⟩
  · show Function.update p.workers w .exited v = .exited
    by_cases hvw : v = w
    · rw [hvw, Function.update_self]
    · rw [Function.update_of_ne hvw]
      exact h.outside v hv
  · show p.submittedAtStop ≤ p.dequeued.length
    rw [hall]
    exact h.atStop_le
  · show Function.update p.workers w .exited v = .exited
    by_cases hvw : v = w
    · rw [hvw, Function.update_self]
    · rw [Function.update_of_ne hvw]
      exact (h.joined_le k hk).2 v hv
  · have hpos := h.permits k hk
    rw [runs_ready, runs_exited] at hsum
    show 0 < k + ∑ v ∈ Finset.range p.numThreads, (Function.update p.workers w .exited v).runs
    omega

/-- What the critical section does: wait, leave, or take the next task. -/
theorem Inv.enter_cases (h : Inv p) (w : ℕ) :
    (p.taskQueue.size = 0 ∧ p.stop = false ∧ p.enter w = p.setWorker w .waiting) ∨
      (p.taskQueue.size = 0 ∧ p.stop = true ∧ p.enter w = p.setWorker w .exited) ∨
      ∃ q, q.Represents (List.range' (p.dequeued.length + 1) (p.submitted - (p.dequeued.length + 1))) ∧
        p.dequeued.length < p.submitted ∧
        p.enter w = { p.setWorker w (.holding p.dequeued.length) with
          taskQueue := q, dequeued := p.dequeued ++ [p.dequeued.length] } := by
  rw [Pool.enter]
  by_cases hwait : p.taskQueue.size = 0 ∧ p.stop = false
  · exact Or.inl ⟨hwait.1, hwait.2, if_pos hwait⟩
  · rw [if_neg hwait]
    by_cases hleave : p.stop = true ∧ p.taskQueue.size = 0
    · exact Or.inr (Or.inl ⟨hleave.2, hleave.1, if_pos hleave⟩)
    · rw [if_neg hleave]
      have hne : p.taskQueue.size ≠ 0 := by
        intro h0
        cases hs : p.stop with
        | false => exact hwait ⟨h0, hs⟩
        | true => exact hleave ⟨hs, h0⟩
      have hsize := h.queue.size_eq
      rw [List.length_range'] at hsize
      have hqueue := h.queue
      obtain ⟨m, hm⟩ : ∃ m, p.submitted - p.dequeued.length = m + 1 := ⟨p.submitted - p.dequeued.length - 1, by omega⟩
      rw [hm, List.range'_succ] at hqueue
      obtain ⟨htask, hrest⟩ := hqueue.detach
      refine Or.inr (Or.inr ⟨(p.taskQueue.detach 0).2, ?_, by omega, ?_⟩)
      · rwa [show p.submitted - (p.dequeued.length + 1) = m by omega]
      · generalize p.taskQueue.detach 0 = r at *
        obtain ⟨t, q⟩ := r
        dsimp only at htask
        rw [htask]

theorem exec_acquire (hstep : exec alloc p (.acquire w) = some p') :
    ∃ t, p.workers w = .holding t ∧ p.resourceSem ≠ some 0 ∧
      p' = { p.setWorker w (.running t) with
        resourceSem := p.resourceSem.map (· - 1), started := p.started ++ [t] } := by
  rw [exec] at hstep
  cases hw : p.workers w with
  | holding t =>
      simp only [hw] at hstep
      split_ifs at hstep with hsem
      exact ⟨t, rfl, hsem, (Option.some.inj hstep).symm⟩
  | ready => simp [hw] at hstep
  | waiting => simp [hw] at hstep
  | running t => simp [hw] at hstep
  | exited => simp [hw] at hstep

theorem exec_finish (hstep : exec alloc p (.finish w) = some p') :
    ∃ t, p.workers w = .running t ∧
      p' = { p.setWorker w .ready with
        resourceSem := p.resourceSem.map (· + 1), completed := p.completed ++ [t] } := by
  rw [exec] at hstep
  cases hw : p.workers w with
  | running t =>
      simp only [hw, Option.some.injEq] at hstep
      exact ⟨t, rfl, hstep.symm⟩
  | ready => simp [hw] at hstep
  | waiting => simp [hw] at hstep
  | holding t => simp [hw] at hstep
  | exited => simp [hw] at hstep

theorem exec_join (hstep : exec alloc p .join = some p') :
    ∃ k, p.joined = some k ∧ k < p.numThreads ∧ p.workers k = .exited ∧ p' = { p with joined := some (k + 1) } := by
  rw [exec] at hstep
  cases hjoined : p.joined with
  | none => simp [hjoined] at hstep
  | some k =>
      simp only [hjoined] at hstep
      split_ifs at hstep with hk
      exact ⟨k, rfl, hk.1, hk.2, (Option.some.inj hstep).symm⟩

/-- **One step** keeps the invariant, unless the queue cannot be enlarged. -/
theorem Inv.step (h : Inv p) (hstep : exec alloc p op = some p') (hok : p'.failed = false) : Inv p' := by
  cases op with
  | submit =>
      simp only [exec, Option.some.injEq] at hstep
      subst hstep
      simp only [Bool.or_eq_false_iff, Bool.not_eq_false'] at hok
      have hqueue := h.queue.add (alloc p.submitted) p.submitted
      rw [if_pos hok.2] at hqueue
      have hle := h.length_le
      have hconcat : List.range' p.dequeued.length (p.submitted + 1 - p.dequeued.length) =
          List.range' p.dequeued.length (p.submitted - p.dequeued.length) ++ [p.submitted] := by
        rw [show p.submitted + 1 - p.dequeued.length = p.submitted - p.dequeued.length + 1 by omega,
          List.range'_1_concat, show p.dequeued.length + (p.submitted - p.dequeued.length) = p.submitted by omega]
      exact ⟨by rw [hconcat]; exact hqueue, Nat.le_succ_of_le hle, h.dequeued_eq, h.tasks, h.outside,
        Nat.le_succ_of_le h.atStop_le, h.exited, h.joined_le, h.stop_eq, h.permits⟩
  | enter w =>
      rw [exec] at hstep
      split_ifs at hstep with hw
      obtain rfl := Option.some.inj hstep
      rcases h.enter_cases w with ⟨-, -, heq⟩ | ⟨hempty, hstop, heq⟩ | ⟨q, hq, hlt, heq⟩
      · rw [heq]
        exact h.idle (Or.inl hw) (Or.inr rfl)
      · rw [heq]
        exact h.leave hw hstop hempty
      · rw [heq]
        have hnot : p.workers w ≠ .exited := by simp [hw]
        have hlen : (p.dequeued ++ [p.dequeued.length]).length = p.dequeued.length + 1 := by simp
        have hsum := sum_update Worker.runs p.workers (h.lt_of_ne_exited hnot) (.holding p.dequeued.length)
        rw [hw] at hsum
        refine h.move hnot (by simp) (by rwa [hlen]) (by omega) ?_ ?_ fun k hk => ?_
        · rw [hlen, List.range_succ, ← h.dequeued_eq]
        · rw [hlen]
          exact h.tasks.dequeue (by rw [hw]; rfl)
        · have hpos := h.permits k hk
          rw [runs_ready, runs_holding] at hsum
          omega
  | wake w =>
      rw [exec] at hstep
      split_ifs at hstep with hw
      obtain rfl := Option.some.inj hstep
      exact h.idle (Or.inr hw) (Or.inl rfl)
  | acquire w =>
      obtain ⟨t, hw, hsem, rfl⟩ := exec_acquire hstep
      have hnot : p.workers w ≠ .exited := by simp [hw]
      have hsum := sum_update Worker.runs p.workers (h.lt_of_ne_exited hnot) (.running t)
      rw [hw, runs_holding, runs_running] at hsum
      refine h.move hnot (by simp) h.queue ⟨le_rfl, h.length_le⟩ h.dequeued_eq (h.tasks.start hw) fun k hk => ?_
      omega
  | finish w =>
      obtain ⟨t, hw, rfl⟩ := exec_finish hstep
      have hnot : p.workers w ≠ .exited := by simp [hw]
      refine h.move hnot (by simp) h.queue ⟨le_rfl, h.length_le⟩ h.dequeued_eq (h.tasks.finish hw) fun k hk => ?_
      obtain ⟨k', -, rfl⟩ := Option.map_eq_some_iff.mp hk
      omega
  | shutdown =>
      rw [exec] at hstep
      split_ifs at hstep with hstop
      · rwa [← Option.some.inj hstep]
      · obtain rfl := Option.some.inj hstep
        refine ⟨h.queue, h.length_le, h.dequeued_eq, h.tasks, h.outside, le_rfl,
          fun v hv hexited => absurd (h.exited v hv hexited).1 hstop, fun k hk => ?_, rfl, h.permits⟩
        obtain rfl : 0 = k := Option.some.inj hk
        exact ⟨Nat.zero_le _, fun v hv => absurd hv (Nat.not_lt_zero v)⟩
  | join =>
      obtain ⟨k, hjoined, hlt, hk, rfl⟩ := exec_join hstep
      refine ⟨h.queue, h.length_le, h.dequeued_eq, h.tasks, h.outside, h.atStop_le, h.exited, fun k' hk' => ?_,
        by rw [← h.stop_eq, hjoined]; rfl, h.permits⟩
      obtain rfl : k + 1 = k' := Option.some.inj hk'
      refine ⟨hlt, fun v hv => ?_⟩
      rcases Nat.lt_succ_iff_lt_or_eq.mp hv with hv | rfl
      · exact (h.joined_le k hjoined).2 v hv
      · exact hk

/-! ### Runs -/

theorem enter_frame (p : Pool) (w : ℕ) :
    (p.enter w).numThreads = p.numThreads ∧ (p.enter w).failed = p.failed := by
  rw [Pool.enter]
  split_ifs
  · exact ⟨rfl, rfl⟩
  · exact ⟨rfl, rfl⟩
  · generalize p.taskQueue.detach 0 = r
    obtain ⟨_ | t, q⟩ := r <;> exact ⟨rfl, rfl⟩

/-- Only `submit` can fail to enlarge the queue, and that is remembered. -/
theorem exec_frame (hstep : exec alloc p op = some p') :
    p'.numThreads = p.numThreads ∧ (p'.failed = false → p.failed = false) ∧
      (op ≠ .submit → p'.failed = p.failed) := by
  cases op with
  | submit =>
      simp only [exec, Option.some.injEq] at hstep
      subst hstep
      refine ⟨rfl, fun hok => ?_, fun hne => absurd rfl hne⟩
      simp only [Bool.or_eq_false_iff] at hok
      exact hok.1
  | enter w =>
      rw [exec] at hstep
      split_ifs at hstep
      obtain rfl := Option.some.inj hstep
      obtain ⟨hnum, hsame⟩ := enter_frame p w
      exact ⟨hnum, fun hok => hsame ▸ hok, fun _ => hsame⟩
  | wake w =>
      rw [exec] at hstep
      split_ifs at hstep
      rw [← Option.some.inj hstep]
      exact ⟨rfl, id, fun _ => rfl⟩
  | acquire w =>
      obtain ⟨t, -, -, rfl⟩ := exec_acquire hstep
      exact ⟨rfl, id, fun _ => rfl⟩
  | finish w =>
      obtain ⟨t, -, rfl⟩ := exec_finish hstep
      exact ⟨rfl, id, fun _ => rfl⟩
  | shutdown =>
      rw [exec] at hstep
      split_ifs at hstep <;> rw [← Option.some.inj hstep] <;> exact ⟨rfl, id, fun _ => rfl⟩
  | join =>
      obtain ⟨k, -, -, -, rfl⟩ := exec_join hstep
      exact ⟨rfl, id, fun _ => rfl⟩

theorem run_cons {ops : List Op} :
    run alloc p (op :: ops) = some p' ↔ ∃ p₁, exec alloc p op = some p₁ ∧ run alloc p₁ ops = some p' := by
  rw [run, List.foldlM_cons]
  exact Option.bind_eq_some_iff

theorem failed_of_run {ops : List Op} (hrun : run alloc p ops = some p') (hok : p'.failed = false) :
    p.failed = false := by
  induction ops generalizing p with
  | nil =>
      obtain rfl : p = p' := by simpa [run] using hrun
      exact hok
  | cons op ops ih =>
      obtain ⟨p₁, hstep, hrest⟩ := run_cons.mp hrun
      exact (exec_frame hstep).2.1 (ih hrest)

theorem numThreads_of_run {ops : List Op} (hrun : run alloc p ops = some p') : p'.numThreads = p.numThreads := by
  induction ops generalizing p with
  | nil =>
      obtain rfl : p = p' := by simpa [run] using hrun
      rfl
  | cons op ops ih =>
      obtain ⟨p₁, hstep, hrest⟩ := run_cons.mp hrun
      rw [ih hrest, (exec_frame hstep).1]

/-- **A run** keeps the invariant. -/
theorem Inv.run (h : Inv p) {ops : List Op} (hrun : run alloc p ops = some p') (hok : p'.failed = false) :
    Inv p' := by
  induction ops generalizing p with
  | nil =>
      obtain rfl : p = p' := by simpa [ThreadPool.run] using hrun
      exact h
  | cons op ops ih =>
      obtain ⟨p₁, hstep, hrest⟩ := run_cons.mp hrun
      exact ih (h.step hstep (failed_of_run hrest hok)) hrest

/-! ### The end of a run -/

/-- How many steps a worker has before it at most, besides those for the tasks in the queue. -/
def Worker.weight : Worker → ℕ
  | .ready => 1
  | .waiting => 2
  | .holding _ => 3
  | .running _ => 2
  | .exited => 0

@[simp] theorem weight_ready : Worker.ready.weight = 1 := rfl

@[simp] theorem weight_waiting : Worker.waiting.weight = 2 := rfl

@[simp] theorem weight_holding (t : ℕ) : (Worker.holding t).weight = 3 := rfl

@[simp] theorem weight_running (t : ℕ) : (Worker.running t).weight = 2 := rfl

@[simp] theorem weight_exited : Worker.exited.weight = 0 := rfl

/-- How many steps there are at most when nothing more is submitted. -/
def Pool.measure (p : Pool) : ℕ :=
  4 * p.taskQueue.size + ∑ w ∈ Finset.range p.numThreads, (p.workers w).weight + (p.numThreads - p.joined.getD 0)

/-- Which steps are neither a call of `submit` nor one of `shutdown`. -/
def Op.isInternal : Op → Bool
  | .submit => false
  | .shutdown => false
  | _ => true

@[simp] theorem setWorker_taskQueue (x : Worker) : (p.setWorker w x).taskQueue = p.taskQueue := rfl

/-- A worker moves from `x` to `y`, and the queue changes its size. -/
theorem measure_setWorker_lt {x y : Worker} {q : ArrayList ℕ} {p₁ : Pool} (hw : p.workers w = x)
    (hlt : w < p.numThreads) (hp : p₁.workers = Function.update p.workers w y ∧ p₁.numThreads = p.numThreads ∧
      p₁.joined = p.joined ∧ p₁.taskQueue = q)
    (hweight : 4 * q.size + y.weight < 4 * p.taskQueue.size + x.weight) : p₁.measure < p.measure := by
  have hsum := sum_update Worker.weight p.workers hlt y
  rw [hw] at hsum
  obtain ⟨hworkers, hnum, hjoined, hqueue⟩ := hp
  rw [Pool.measure, Pool.measure, hworkers, hnum, hjoined, hqueue]
  omega

/-- **Every step of a worker and every join leads on** once `stop` is set. -/
theorem Inv.measure_lt (h : Inv p) (hstop : p.stop = true) (hstep : exec alloc p op = some p')
    (hop : op.isInternal = true) : p'.measure < p.measure ∧ p'.stop = true := by
  cases op with
  | submit => exact absurd hop (by simp [Op.isInternal])
  | shutdown => exact absurd hop (by simp [Op.isInternal])
  | enter w =>
      rw [exec] at hstep
      split_ifs at hstep with hw
      obtain rfl := Option.some.inj hstep
      have hlt : w < p.numThreads := h.lt_of_ne_exited (by simp [hw])
      rcases h.enter_cases w with ⟨-, hrun, -⟩ | ⟨-, -, heq⟩ | ⟨q, hq, hmore, heq⟩
      · rw [hstop] at hrun
        exact absurd hrun (by simp)
      · rw [heq]
        exact ⟨measure_setWorker_lt hw hlt ⟨rfl, rfl, rfl, rfl⟩ (by simp), hstop⟩
      · have hsize := h.queue.size_eq
        have hsize' := hq.size_eq
        rw [List.length_range'] at hsize hsize'
        rw [heq]
        refine ⟨measure_setWorker_lt hw hlt (q := q) ⟨rfl, rfl, rfl, rfl⟩ ?_, hstop⟩
        rw [weight_holding, weight_ready]
        omega
  | wake w =>
      rw [exec] at hstep
      split_ifs at hstep with hw
      obtain rfl := Option.some.inj hstep
      exact ⟨measure_setWorker_lt hw (h.lt_of_ne_exited (by simp [hw])) ⟨rfl, rfl, rfl, rfl⟩ (by simp), hstop⟩
  | acquire w =>
      obtain ⟨t, hw, -, rfl⟩ := exec_acquire hstep
      exact ⟨measure_setWorker_lt hw (h.lt_of_ne_exited (by simp [hw])) ⟨rfl, rfl, rfl, rfl⟩ (by simp), hstop⟩
  | finish w =>
      obtain ⟨t, hw, rfl⟩ := exec_finish hstep
      exact ⟨measure_setWorker_lt hw (h.lt_of_ne_exited (by simp [hw])) ⟨rfl, rfl, rfl, rfl⟩ (by simp), hstop⟩
  | join =>
      obtain ⟨k, hjoined, hlt, -, rfl⟩ := exec_join hstep
      refine ⟨?_, hstop⟩
      simp only [Pool.measure, hjoined, Option.getD_some]
      omega

/-- **There is always a step** of a worker or a join, until `shutdown` returns. -/
theorem Inv.progress (h : Inv p) (hstop : p.stop = true) (hreturned : ¬p.Returned) (alloc : ℕ → ℕ → Bool) :
    ∃ op p', op.isInternal = true ∧ exec alloc p op = some p' := by
  by_cases hall : ∀ w < p.numThreads, p.workers w = .exited
  · -- all workers have left, so the next one can be joined
    have hsome : p.joined.isSome = true := h.stop_eq.trans hstop
    obtain ⟨k, hk⟩ := Option.isSome_iff_exists.mp hsome
    have hle := (h.joined_le k hk).1
    have hne : k ≠ p.numThreads := fun heq => hreturned (by rw [Pool.Returned, hk, heq])
    refine ⟨.join, { p with joined := some (k + 1) }, rfl, ?_⟩
    simp only [exec, hk]
    rw [if_pos ⟨by omega, hall k (by omega)⟩]
  · push Not at hall
    obtain ⟨w, hlt, hw⟩ := hall
    cases hstate : p.workers w with
    | ready => exact ⟨.enter w, p.enter w, rfl, by rw [exec, if_pos hstate]⟩
    | waiting => exact ⟨.wake w, p.setWorker w .ready, rfl, by rw [exec, if_pos hstate]⟩
    | exited => exact absurd hstate hw
    | running t => exact ⟨.finish w, _, rfl, by simp only [exec, hstate]; rfl⟩
    | holding t =>
        by_cases hsem : p.resourceSem = some 0
        · -- a worker without a permit waits for one that runs
          have hpos := h.permits 0 hsem
          rw [Nat.zero_add] at hpos
          obtain ⟨v, -, hv⟩ := Finset.exists_ne_zero_of_sum_ne_zero hpos.ne'
          cases hother : p.workers v with
          | running u => exact ⟨.finish v, _, rfl, by simp only [exec, hother]; rfl⟩
          | ready => exact absurd (by rw [hother]; rfl) hv
          | waiting => exact absurd (by rw [hother]; rfl) hv
          | holding u => exact absurd (by rw [hother]; rfl) hv
          | exited => exact absurd (by rw [hother]; rfl) hv
        · exact ⟨.acquire w, _, rfl, by simp only [exec, hstate, if_neg hsem]; rfl⟩

theorem ne_submit_of_isInternal (hop : op.isInternal = true) : op ≠ .submit := by
  rintro rfl
  exact absurd hop (by simp [Op.isInternal])

/-- Once `stop` is set, the workers and the joins bring `shutdown` to its end. -/
theorem Inv.shutdown_returns (h : Inv p) (hstop : p.stop = true) (hok : p.failed = false)
    (alloc : ℕ → ℕ → Bool) :
    ∃ ops p', (∀ op ∈ ops, op.isInternal = true) ∧ ThreadPool.run alloc p ops = some p' ∧ p'.failed = false ∧
      p'.Returned := by
  generalize hm : p.measure = m
  induction m using Nat.strong_induction_on generalizing p with
  | _ m ih =>
      by_cases hreturned : p.Returned
      · exact ⟨[], p, by simp, rfl, hok, hreturned⟩
      · obtain ⟨op, p₁, hop, hstep⟩ := h.progress hstop hreturned alloc
        have hsame := (exec_frame hstep).2.2 (ne_submit_of_isInternal hop)
        obtain ⟨hlt, hstop₁⟩ := h.measure_lt hstop hstep hop
        have hok₁ : p₁.failed = false := hsame.trans hok
        obtain ⟨ops, p', hops, hrun, hok', hend⟩ := ih p₁.measure (hm ▸ hlt) (h.step hstep hok₁) hstop₁ hok₁ rfl
        refine ⟨op :: ops, p', fun o ho => ?_, run_cons.mpr ⟨p₁, hstep, hrun⟩, hok', hend⟩
        rcases List.mem_cons.mp ho with rfl | ho
        · exact hop
        · exact hops o ho

/-- **Exactly once**, with any number of workers from one on, in any order of the steps of the threads, while
the queue can be enlarged. The tasks are dequeued in the order of their submission, none of them is started or
completed twice, and when the call of `shutdown` that has set `stop` returns, every task that was submitted
before has been executed; that call can always be brought to its end. -/
theorem executed_exactly_once (numThreads : ℕ) (hpos : 1 ≤ numThreads) (maxResources : ℤ) (alloc : ℕ → ℕ → Bool)
    (ops : List Op) (p : Pool) (hrun : run alloc (newThreadPool numThreads maxResources) ops = some p)
    (hok : p.failed = false) :
    (p.dequeued = List.range p.dequeued.length ∧ p.dequeued.length ≤ p.submitted) ∧
      (∀ t, p.started.count t ≤ 1 ∧ p.completed.count t ≤ 1) ∧
      (∀ t, (t ∈ p.completed → t ∈ p.started) ∧ (t ∈ p.started → t ∈ p.dequeued)) ∧
      (p.Returned → ∀ t < p.submittedAtStop,
        t ∈ p.dequeued ∧ p.started.count t = 1 ∧ p.completed.count t = 1) ∧
      (p.stop = true → ∃ rest p', (∀ op ∈ rest, op.isInternal = true) ∧ run alloc p rest = some p' ∧
        p'.failed = false ∧ p'.Returned) := by
  have h : Inv p := (inv_new numThreads maxResources).run hrun hok
  have hnum : p.numThreads = numThreads := numThreads_of_run hrun
  have hdequeued : ∀ t, t ∈ p.dequeued ↔ t < p.dequeued.length := by
    intro t
    conv_lhs => rw [h.dequeued_eq]
    exact List.mem_range
  refine ⟨⟨h.dequeued_eq, h.length_le⟩,
    fun t => ⟨List.nodup_iff_count_le_one.mp h.tasks.started_nodup t,
      List.nodup_iff_count_le_one.mp h.tasks.completed_nodup t⟩,
    fun t => ⟨fun ht => (h.tasks.mem_started t).mpr (Or.inl ht), fun ht => (hdequeued t).mpr ?_⟩,
    fun hreturned t ht => ?_, fun hstop => h.shutdown_returns hstop hok alloc⟩
  · rcases (h.tasks.mem_started t).mp ht with hmem | ⟨w, hw⟩
    · exact h.tasks.completed_lt t hmem
    · exact (h.tasks.hand_lt w t (hand_of_running hw)).1
  · have hexited : ∀ w, p.workers w = .exited := by
      intro w
      rcases Nat.lt_or_ge w p.numThreads with hw | hw
      · exact (h.joined_le _ hreturned).2 w hw
      · exact h.outside w hw
    -- a worker has left, so it has seen the queue empty
    have hlt : t < p.dequeued.length := ht.trans_le (h.exited 0 (by omega) (hexited 0)).2
    have hcompleted : t ∈ p.completed := by
      rcases h.tasks.done t hlt with hmem | ⟨w, hw⟩
      · exact hmem
      · rw [hexited] at hw
        exact absurd hw (by simp [Worker.hand])
    exact ⟨(hdequeued t).mpr hlt,
      List.count_eq_one_of_mem h.tasks.started_nodup ((h.tasks.mem_started t).mpr (Or.inl hcompleted)),
      List.count_eq_one_of_mem h.tasks.completed_nodup hcompleted⟩

/-- Two workers with one permit; the second task waits for the first one, and a third comes after `stop`. -/
theorem executed_exactly_once_sample :
    ∃ p, run (fun _ _ => true) (newThreadPool 2 1)
        [.submit, .submit, .enter 0, .enter 1, .acquire 0, .shutdown, .submit, .finish 0, .acquire 1, .enter 0,
          .finish 1, .acquire 0, .enter 1, .finish 0, .enter 0, .join, .join] = some p ∧
      p.submittedAtStop = 2 ∧ ∀ t < 2, t ∈ p.dequeued ∧ p.started.count t = 1 ∧ p.completed.count t = 1 :=
  ⟨_, rfl, rfl, (executed_exactly_once 2 (by simp) 1 (fun _ _ => true)
    [.submit, .submit, .enter 0, .enter 1, .acquire 0, .shutdown, .submit, .finish 0, .acquire 1, .enter 0,
      .finish 1, .acquire 0, .enter 1, .finish 0, .enter 0, .join, .join] _ rfl rfl).2.2.2.1 rfl⟩

end ThreadPool
