import LibCore.Bytes
import LibCore.GameTimer
import LibCore.TimerRegistry

/-!
# Removing a Timer

What `removeTimer` of an event loop leaves when it fails, and what its callers `Scheduler_remove` and
`GameRoom_detach_timer` then leave. The timer is stopped before the backend is asked to drop it.

## Main definitions

* `Scheduler`, `Scheduler.remove`: the jobs of a scheduler and their timers.
* `RefusedWhileArmed`: the call that goes wrong.

## Main results

* `removal_atomic_iff`: a failed removal changes nothing unless it is that call.
-/

open CString

namespace EventLoop

/-! ### Schedulers -/

/-- `ScheduleJob`: its name and its timer. -/
structure ScheduleJob where
  name : Bytes
  timer : ℕ

/-- `Scheduler`, with its loop. -/
structure Scheduler where
  loop : Loop
  jobs : List ScheduleJob

/-- `Scheduler_remove`; `lastOwner` says that no worker has a reference to the job. -/
def Scheduler.remove (self : Scheduler) (name : Bytes) (settimeOk backendOk lastOwner : Bool) : Bool × Scheduler :=
  match self.jobs.find? (·.name = name) with
  | none => (false, self)
  | some job =>
      let (removed, loop) := self.loop.removeTimer job.timer settimeOk backendOk
      if !removed then (false, { self with loop := loop })
      else
        (true,
          { loop := if lastOwner then loop.modify job.timer Timer.release else loop
            jobs := self.jobs.eraseP (·.name = name) })

/-! ### Failed removals -/

/-- The backend refuses to drop a timer that has been stopped for it. -/
def RefusedWhileArmed (l : Loop) (i : ℕ) (settimeOk backendOk : Bool) : Prop :=
  (l.timers i).platformData = true ∧ (l.timers i).active = true ∧ settimeOk = true ∧ backendOk = false

/-- A call that fails leaves the state as it is. -/
def Atomic {S : Type} (s : S) (result : Bool × S) : Prop := result.1 = false → result.2 = s

namespace Loop

theorem modify_eq_self {l : Loop} {i : ℕ} {f : Timer → Timer} (h : f (l.timers i) = l.timers i) :
    l.modify i f = l := by
  rw [modify, h, Function.update_eq_self]

/-- Stopping a timer changes the loop exactly if the timer runs and the kernel stops it. -/
theorem stopActive_eq_self_iff (l : Loop) (i : ℕ) (settimeOk : Bool) :
    l.stopActive i settimeOk = l ↔ ¬((l.timers i).active = true ∧ settimeOk = true) := by
  rw [stopActive]
  by_cases hactive : (l.timers i).active = true
  · rw [if_pos hactive]
    cases settimeOk with
    | false => exact iff_of_true (modify_eq_self (by simp [Timer.stop])) (by simp)
    | true =>
        refine iff_of_false (fun heq => ?_) (not_not.mpr ⟨hactive, rfl⟩)
        have hself := congrArg (fun l : Loop => (l.timers i).active) heq
        simp only [modify_self, Timer.stop, hactive] at hself
        exact Bool.false_ne_true hself
  · rw [if_neg hactive]
    exact iff_of_true rfl fun h => hactive h.1

theorem atomic_removeTimer_iff {l : Loop} {i : ℕ}
    (hi : i ∈ l.activeTimers ↔ (l.timers i).platformData = true) (settimeOk backendOk : Bool) :
    Atomic l (l.removeTimer i settimeOk backendOk) ↔ ¬RefusedWhileArmed l i settimeOk backendOk := by
  rw [Atomic, RefusedWhileArmed, ← hi, removeTimer]
  by_cases hmem : i ∈ l.activeTimers
  · rw [if_pos hmem]
    dsimp only
    have hstop := l.stopActive_eq_self_iff i settimeOk
    by_cases hrefused : (l.timers i).active = true ∧ settimeOk = true
    · -- the timer has been stopped
      have hstopped : ¬((l.stopActive i settimeOk).timers i).active = true := by
        rw [stopActive, if_pos hrefused.1, modify_self, Timer.stop, hrefused.1, hrefused.2]
        exact Bool.false_ne_true
      rw [if_neg hstopped]
      cases backendOk with
      | true => exact iff_of_true (fun h => absurd h Bool.false_ne_true.symm) fun h => Bool.false_ne_true h.2.2.2.symm
      | false =>
          refine iff_of_false (fun h => ?_) (not_not.mpr ⟨hmem, hrefused.1, hrefused.2, rfl⟩)
          exact (hstop.mp (h rfl)) hrefused
    · rw [hstop.mpr hrefused]
      refine iff_of_true (fun h => ?_) fun h => hrefused ⟨h.2.1, h.2.2.1⟩
      split_ifs at h ⊢ <;> rfl
  · rw [if_neg hmem]
    exact iff_of_true (fun _ => rfl) fun h => hmem h.1

end Loop

/-- A scheduler passes the failure of its loop on. -/
theorem Scheduler.atomic_remove_iff (s : Scheduler) (name : Bytes) (settimeOk backendOk lastOwner : Bool) :
    Atomic s (s.remove name settimeOk backendOk lastOwner) ↔
      ∀ job ∈ s.jobs.find? (·.name = name), Atomic s.loop (s.loop.removeTimer job.timer settimeOk backendOk) := by
  rw [Atomic, remove]
  cases s.jobs.find? (·.name = name) with
  | none => exact iff_of_true (fun _ => rfl) fun _ h => nomatch h
  | some job =>
      simp only [Option.mem_def, Option.some.injEq, forall_eq', Atomic]
      cases hremoved : (s.loop.removeTimer job.timer settimeOk backendOk).1 with
      | true => exact iff_of_true (fun h => absurd h Bool.false_ne_true.symm) fun h => absurd h Bool.false_ne_true.symm
      | false =>
          refine forall_congr' fun _ => ⟨fun h => congrArg Scheduler.loop h, fun h => ?_⟩
          rw [h]
          rfl

/-- A room passes the failure of its loop on. -/
theorem atomic_detachTimer_iff (s : PixelWar.Site) (ans : PixelWar.Answers) :
    Atomic s (s.detachTimer ans) ↔
      (s.room.gameTimer = true →
        Atomic s.loop (s.loop.removeTimer s.gameTimer ans.settimeOk ans.backendRemoves)) := by
  rw [Atomic, PixelWar.Site.detachTimer]
  cases hroom : s.room.gameTimer with
  | false => exact iff_of_true (fun h => absurd h Bool.false_ne_true.symm) fun h => absurd h Bool.false_ne_true
  | true =>
      simp only [Atomic, forall_const]
      cases hremoved : (s.loop.removeTimer s.gameTimer ans.settimeOk ans.backendRemoves).1 with
      | true => exact iff_of_true (fun h => absurd h Bool.false_ne_true.symm) fun h => absurd h Bool.false_ne_true.symm
      | false =>
          refine forall_congr' fun _ => ⟨fun h => congrArg PixelWar.Site.loop h, fun h => ?_⟩
          rw [h]
          rfl

namespace Registry

/-- **When a failed removal changes nothing** -/
theorem removal_atomic_iff {r : Registry} (h : Reachable r) (settimeOk backendOk : Bool) :
    (∀ i, Atomic r.loop (r.loop.removeTimer i settimeOk backendOk) ↔
      ¬RefusedWhileArmed r.loop i settimeOk backendOk) ∧
    (∀ jobs name lastOwner,
      Atomic ⟨r.loop, jobs⟩ (Scheduler.remove ⟨r.loop, jobs⟩ name settimeOk backendOk lastOwner) ↔
        ∀ job ∈ jobs.find? (·.name = name), ¬RefusedWhileArmed r.loop job.timer settimeOk backendOk) ∧
    ∀ (s : PixelWar.Site) (ans : PixelWar.Answers), s.loop = r.loop → ans.settimeOk = settimeOk →
      ans.backendRemoves = backendOk →
        (Atomic s (s.detachTimer ans) ↔
          (s.room.gameTimer = true → ¬RefusedWhileArmed r.loop s.gameTimer settimeOk backendOk)) := by
  have hatomic : ∀ i, Atomic r.loop (r.loop.removeTimer i settimeOk backendOk) ↔
      ¬RefusedWhileArmed r.loop i settimeOk backendOk :=
    fun i => Loop.atomic_removeTimer_iff ((reachable_inv h).mem_iff i) settimeOk backendOk
  refine ⟨hatomic, fun jobs name lastOwner => ?_, ?_⟩
  · rw [Scheduler.atomic_remove_iff]
    simp only [hatomic]
  · rintro s ans hloop rfl rfl
    rw [atomic_detachTimer_iff, hloop]
    simp only [hatomic]

/-- Timer 7 is added and started. -/
def armedRegistry : Registry :=
  let r := { sampleRegistry with loop := (sampleRegistry.loop.addTimer 7 true).2 }
  { r with loop := r.loop.modify 7 fun _ => ((r.loop.timers 7).start true).2 }

theorem reachable_armedRegistry : Reachable armedRegistry :=
  .step
    (.step (.step (.initial _ fun _ => ⟨rfl, rfl⟩) (.create 7 true true 1000 sampleTimer rfl rfl))
      (.add 7 true (by decide)))
    (.touch 7 _ rfl rfl)

theorem removal_atomic_sample : Atomic armedRegistry.loop (armedRegistry.loop.removeTimer 7 false true) :=
  ((removal_atomic_iff reachable_armedRegistry false true).1 7).mpr fun h => Bool.false_ne_true h.2.2.1

/-- The backend refuses to drop timer 7, which no longer runs then. -/
theorem removal_not_atomic :
    ∃ r, Reachable r ∧ ¬Atomic r.loop (r.loop.removeTimer 7 true false) := by
  refine ⟨armedRegistry, reachable_armedRegistry, ?_⟩
  rw [Loop.atomic_removeTimer_iff ((reachable_inv reachable_armedRegistry).mem_iff 7), not_not]
  exact ⟨rfl, rfl, rfl, rfl⟩

end Registry

end EventLoop
