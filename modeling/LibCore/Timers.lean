import Mathlib.Data.Int.Notation
import Mathlib.Data.List.Basic
import Mathlib.Data.Nat.Notation
import Mathlib.Logic.Function.Basic

/-!
# Timers and the Timer Registry of an Event Loop

`timer.c` on Linux and the timer part of `event_loop.c`. A timer owns a timerfd: `itValue` and
`itInterval` are what the kernel holds for that descriptor, and an `itValue` of zero is a
disarmed descriptor. Registration with a loop (`addTimer`) and arming (`start`) are two
operations. What the kernel and the backend answer is an argument of each call.

## Main definitions

* `Timer`, `Timer.start`, `Timer.stop`, `Timer.onTimerEvent`: one timer.
* `Loop`, `Loop.addTimer`, `Loop.removeTimer`: the registry.
-/

namespace EventLoop

/-- `Timer`; `platformData` says that the loop has registered it, `refs` counts its owners. -/
structure Timer where
  tfdOpen : Bool
  intervalMs : ℤ
  repeating : Bool
  active : Bool
  platformData : Bool
  refs : ℕ
  itValue : ℤ × ℤ
  itInterval : ℤ × ℤ
deriving DecidableEq

/-- The seconds and nanoseconds of an interval. -/
def timespec (intervalMs : ℤ) : ℤ × ℤ :=
  (intervalMs / 1000, intervalMs % 1000 * 1000000)

namespace Timer

/-- `new_Timer`: `none` for `NULL`. -/
def new (created : Bool) (intervalMs : ℤ) (repeating : Bool) : Option Timer :=
  if intervalMs ≤ 0 then none
  else if !created then none
  else some
    { tfdOpen := true
      intervalMs := intervalMs
      repeating := repeating
      active := false
      platformData := false
      refs := 1
      itValue := (0, 0)
      itInterval := (0, 0) }

/-- `Timer_start`. -/
def start (t : Timer) (settimeOk : Bool) : Bool × Timer :=
  if t.active || !t.tfdOpen || !t.platformData then (false, t)
  else if !settimeOk then (false, t)
  else
    (true, { t with
      itValue := timespec t.intervalMs
      itInterval := if t.repeating then timespec t.intervalMs else (0, 0)
      active := true })

/-- `Timer_stop`. -/
def stop (t : Timer) (settimeOk : Bool) : Timer :=
  if !t.active then t
  else if settimeOk then { t with itValue := (0, 0), itInterval := (0, 0), active := false }
  else t

/-- `Timer_reset`. -/
def reset (t : Timer) (stopOk startOk : Bool) : Timer :=
  ((t.stop stopOk).start startOk).2

/-- The kernel signals the descriptor only while it is armed, and the loop hands the event on
only if the timer is registered. -/
def CanFire (t : Timer) : Prop :=
  t.tfdOpen = true ∧ t.itValue ≠ (0, 0) ∧ t.platformData = true

instance (t : Timer) : Decidable t.CanFire := by
  unfold CanFire
  infer_instance

/-- `on_timer_event` without the callback, after the descriptor has been signalled: the kernel
rearms it with its interval. -/
def onTimerEvent (t : Timer) : Timer :=
  let t := { t with itValue := t.itInterval }
  if t.repeating then t else { t with active := false }

/-- `RETAIN`. -/
def retain (t : Timer) : Timer := { t with refs := t.refs + 1 }

/-- `RELEASE`, with `Timer_finalize` for the last owner. -/
def release (t : Timer) : Timer :=
  if t.refs = 1 then { t with refs := 0, tfdOpen := false, active := false }
  else { t with refs := t.refs - 1 }

/-- A timer that is not armed. -/
def Idle (t : Timer) : Prop := t.active = false ∧ t.itValue = (0, 0)

/-- A new timer belongs to no loop and is not armed. -/
theorem new_eq_some {created repeating : Bool} {intervalMs : ℤ} {t : Timer}
    (h : new created intervalMs repeating = some t) :
    created = true ∧ t.platformData = false ∧ t.Idle := by
  rw [new] at h
  split_ifs at h with hinterval hcreated
  rw [← Option.some.inj h]
  exact ⟨by simpa using hcreated, rfl, rfl, rfl⟩

theorem Idle.stop {t : Timer} (h : t.Idle) (settimeOk : Bool) : (t.stop settimeOk).Idle := by
  rw [Timer.stop, h.1]
  exact h

theorem Idle.release {t : Timer} (h : t.Idle) : t.release.Idle := by
  rw [Timer.release]
  split_ifs
  · exact ⟨rfl, h.2⟩
  · exact h

theorem Idle.not_canFire {t : Timer} (h : t.Idle) : ¬ t.CanFire := fun hfire => hfire.2.1 h.2

end Timer

/-- The timers of a loop: all that exist, and `active_timers[0..count)`. -/
structure Loop where
  timers : ℕ → Timer
  activeTimers : List ℕ

namespace Loop

/-- The loop after one timer has changed. -/
def modify (l : Loop) (i : ℕ) (f : Timer → Timer) : Loop :=
  { l with timers := Function.update l.timers i (f (l.timers i)) }

@[simp] theorem modify_activeTimers (l : Loop) (i : ℕ) (f : Timer → Timer) :
    (l.modify i f).activeTimers = l.activeTimers := rfl

@[simp] theorem modify_self (l : Loop) (i : ℕ) (f : Timer → Timer) :
    (l.modify i f).timers i = f (l.timers i) := by
  simp [modify]

/-- What holds of timer `j` holds after a change of timer `i` that keeps it. -/
theorem modify_timers {P : Timer → Prop} {f : Timer → Timer} {l : Loop} {i j : ℕ}
    (hf : ∀ t, P t → P (f t)) (h : P (l.timers j)) : P ((l.modify i f).timers j) := by
  by_cases hj : j = i
  · subst hj
    rw [modify_self]
    exact hf _ h
  · simpa [modify, hj] using h

theorem modify_other (l : Loop) {i j : ℕ} (h : j ≠ i) (f : Timer → Timer) :
    (l.modify i f).timers j = l.timers j := by
  simp [modify, h]

/-- `_addTimer`; `backendOk` is whether `event_backend_add_timer` returns `0`. -/
def addTimer (l : Loop) (i : ℕ) (backendOk : Bool) : Bool × Loop :=
  if (l.timers i).platformData then (false, l)
  else if l.activeTimers.length ≥ 1024 then (false, l)
  else if backendOk then
    let l := l.modify i fun t => { t with platformData := true }
    let l := l.modify i Timer.retain
    (true, { l with activeTimers := l.activeTimers ++ [i] })
  else (false, l)

/-- `active_timers[k] = active_timers[--count]`. -/
def swapRemove (l : List ℕ) (k : ℕ) : List ℕ :=
  match l.getLast? with
  | none => l
  | some last => (l.set k last).dropLast

/-- Moving the last element into the hole removes one element and keeps the others. -/
theorem swapRemove_perm {l : List ℕ} {i : ℕ} (hi : i ∈ l) : (swapRemove l (l.idxOf i)).Perm (l.erase i) := by
  obtain ⟨a, b, ha, rfl, herase⟩ := List.exists_erase_eq hi
  have hidx : (a ++ i :: b).idxOf i = a.length := by
    rw [List.idxOf_append_of_notMem ha, List.idxOf_cons_self, Nat.add_zero]
  rw [hidx, herase, swapRemove]
  obtain rfl | ⟨init, last, rfl⟩ := List.eq_nil_or_concat' b
  · simp
  · have hcons : a ++ i :: (init ++ [last]) = (a ++ i :: init) ++ [last] := by simp
    rw [hcons, List.getLast?_concat]
    dsimp only
    rw [List.append_assoc, List.set_append_right _ _ (Nat.le_refl _), Nat.sub_self, List.cons_append,
      List.set_cons_zero, ← List.cons_append, ← List.append_assoc, List.dropLast_concat, ← List.append_assoc]
    exact ((List.perm_append_singleton last init).symm).append_left a |>.trans (by simp)

/-- Other timers stay in the registry when one is removed. -/
theorem mem_swapRemove {l : List ℕ} {i j : ℕ} (hi : i ∈ l) (hj : j ≠ i) (h : j ∈ l) :
    j ∈ swapRemove l (l.idxOf i) :=
  (swapRemove_perm hi).mem_iff.mpr ((List.mem_erase_of_ne hj).mpr h)

/-- The first step of `_removeTimer`: an active timer is stopped. -/
def stopActive (l : Loop) (i : ℕ) (settimeOk : Bool) : Loop :=
  if (l.timers i).active then l.modify i (·.stop settimeOk) else l

/-- `_removeTimer`; `settimeOk` and `backendOk` are what `timerfd_settime` and
`event_backend_remove_timer` answer. -/
def removeTimer (l : Loop) (i : ℕ) (settimeOk backendOk : Bool) : Bool × Loop :=
  if i ∈ l.activeTimers then
    let k := l.activeTimers.idxOf i
    let l := l.stopActive i settimeOk
    if (l.timers i).active then (false, l)
    else if backendOk then
      let l := l.modify i fun t => { t with platformData := false }
      let l := { l with activeTimers := swapRemove l.activeTimers k }
      (true, l.modify i Timer.release)
    else (false, l)
  else (false, l)

/-- Whether `addTimer` takes a timer that belongs to no loop. -/
theorem addTimer_fst {l : Loop} {i : ℕ} (h : (l.timers i).platformData = false)
    (backendOk : Bool) :
    (l.addTimer i backendOk).1 = (decide (l.activeTimers.length < 1024) && backendOk) := by
  rw [addTimer, h]
  by_cases hlen : l.activeTimers.length < 1024
  · cases backendOk <;> simp [hlen, Nat.not_le.mpr hlen]
  · simp [hlen, Nat.not_lt.mp hlen]

/-- A successful `addTimer` registers the timer and changes nothing about its arming. -/
theorem addTimer_eq_true {l : Loop} {i : ℕ} {backendOk : Bool}
    (h : (l.addTimer i backendOk).1 = true) :
    (l.addTimer i backendOk).2.activeTimers = l.activeTimers ++ [i] ∧
      (l.addTimer i backendOk).2.timers i =
        { l.timers i with platformData := true, refs := (l.timers i).refs + 1 } := by
  rw [addTimer] at h ⊢
  split_ifs at h ⊢ with hplatform hcount hbackend
  exact ⟨rfl, by simp [Timer.retain]⟩

theorem addTimer_eq_false {l : Loop} {i : ℕ} {backendOk : Bool}
    (h : (l.addTimer i backendOk).1 = false) : (l.addTimer i backendOk).2 = l := by
  rw [addTimer] at h ⊢
  split_ifs at h ⊢ <;> rfl

theorem idle_addTimer {l : Loop} {j : ℕ} (h : (l.timers j).Idle) (i : ℕ) (backendOk : Bool) :
    ((l.addTimer i backendOk).2.timers j).Idle := by
  rw [addTimer]
  split_ifs
  · exact h
  · exact h
  · exact modify_timers (fun t ht => ht) (modify_timers (fun t ht => ht) h)
  · exact h

theorem mem_addTimer {l : Loop} {j : ℕ} (h : j ∈ l.activeTimers) (i : ℕ) (backendOk : Bool) :
    j ∈ (l.addTimer i backendOk).2.activeTimers := by
  cases hadded : (l.addTimer i backendOk).1 with
  | false => rwa [addTimer_eq_false hadded]
  | true =>
      rw [(addTimer_eq_true hadded).1]
      exact List.mem_append_left _ h

@[simp] theorem stopActive_activeTimers (l : Loop) (i : ℕ) (settimeOk : Bool) :
    (l.stopActive i settimeOk).activeTimers = l.activeTimers := by
  rw [stopActive]
  split_ifs <;> rfl

theorem idle_stopActive {l : Loop} {j : ℕ} (h : (l.timers j).Idle) (i : ℕ) (settimeOk : Bool) :
    ((l.stopActive i settimeOk).timers j).Idle := by
  rw [stopActive]
  split_ifs
  · exact modify_timers (fun t ht => ht.stop settimeOk) h
  · exact h

theorem idle_removeTimer {l : Loop} {j : ℕ} (h : (l.timers j).Idle) (i : ℕ)
    (settimeOk backendOk : Bool) : ((l.removeTimer i settimeOk backendOk).2.timers j).Idle := by
  have hstop := idle_stopActive h i settimeOk
  rw [removeTimer]
  dsimp only
  split_ifs
  · exact hstop
  · refine modify_timers (fun t ht => ht.release) ?_
    exact modify_timers (f := fun t => { t with platformData := false }) (fun t ht => ht) hstop
  · exact hstop
  · exact h

/-- A timer is registered for as long as it is not removed itself. -/
theorem mem_removeTimer {l : Loop} {i j : ℕ} (hj : j ≠ i) (h : j ∈ l.activeTimers)
    (settimeOk backendOk : Bool) : j ∈ (l.removeTimer i settimeOk backendOk).2.activeTimers := by
  have hstop := l.stopActive_activeTimers i settimeOk
  rw [removeTimer]
  dsimp only
  split_ifs with hi
  · rwa [hstop]
  · show j ∈ swapRemove (l.stopActive i settimeOk).activeTimers (l.activeTimers.idxOf i)
    rw [hstop]
    exact mem_swapRemove hi hj h
  · rwa [hstop]
  · exact h

/-- A removal that fails leaves the registry alone. -/
theorem removeTimer_eq_false {l : Loop} {i : ℕ} {settimeOk backendOk : Bool}
    (h : (l.removeTimer i settimeOk backendOk).1 = false) :
    (l.removeTimer i settimeOk backendOk).2.activeTimers = l.activeTimers := by
  rw [removeTimer] at h ⊢
  dsimp only at h ⊢
  split_ifs at h ⊢
  · exact l.stopActive_activeTimers i settimeOk
  · exact l.stopActive_activeTimers i settimeOk
  · rfl

end Loop

end EventLoop
