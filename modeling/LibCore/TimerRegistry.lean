import Mathlib.Data.List.Perm.Basic
import Mathlib.Tactic
import LibCore.Timers

/-!
# The Timer Registry over Whole Runs

What holds of `active_timers` of an event loop after any history of `addTimer` and `removeTimer`, whatever the
backend and the timerfds answer. Between two calls the timers themselves may be started, stopped and signalled,
and their other owners may come and go; `others` counts the references these have.

## Main definitions

* `Registry.Step`, `Registry.Reachable`: any order of calls.
* `Registry.Inv`: what holds in every state.

## Main results

* `Registry.reachable_inv`: the registry over whole runs.
-/

namespace EventLoop

/-! ### Runs -/

/-- A loop, and the references that others have to each timer. -/
structure Registry where
  loop : Loop
  others : ℕ → ℕ

namespace Registry

/-- A timer that belongs to no loop and that nobody owns is one that does not exist. -/
def initial (timers : ℕ → Timer) : Registry where
  loop := { timers := timers, activeTimers := [] }
  others _ := 0

/-- The next call for timer `i`. `create` makes a timer at an address where none exists; `touch` is what starts,
stops, resets and events do to it. -/
inductive Step (r : Registry) : Registry → Prop
  | add (i : ℕ) (backendOk : Bool) : 0 < r.others i →
      Step r { r with loop := (r.loop.addTimer i backendOk).2 }
  | remove (i : ℕ) (settimeOk backendOk : Bool) :
      Step r { r with loop := (r.loop.removeTimer i settimeOk backendOk).2 }
  | touch (i : ℕ) (t : Timer) : t.platformData = (r.loop.timers i).platformData →
      t.refs = (r.loop.timers i).refs → Step r { r with loop := r.loop.modify i fun _ => t }
  | retain (i : ℕ) : 0 < (r.loop.timers i).refs →
      Step r ⟨r.loop.modify i Timer.retain, Function.update r.others i (r.others i + 1)⟩
  | release (i : ℕ) : 0 < r.others i →
      Step r ⟨r.loop.modify i Timer.release, Function.update r.others i (r.others i - 1)⟩
  | create (i : ℕ) (created repeating : Bool) (intervalMs : ℤ) (t : Timer) : (r.loop.timers i).refs = 0 →
      Timer.new created intervalMs repeating = some t →
      Step r ⟨r.loop.modify i fun _ => t, Function.update r.others i 1⟩

/-- The states that any sequence of calls leads to. -/
inductive Reachable : Registry → Prop
  | initial (timers : ℕ → Timer) : (∀ i, (timers i).platformData = false ∧ (timers i).refs = 0) →
      Reachable (initial timers)
  | step {r r' : Registry} : Reachable r → Step r r' → Reachable r'

/-- **The invariant** of the registry: distinct timers, at most 1024 of them, those whose `platform_data` is the
loop; the loop has one reference to each of them and none to any other timer. -/
structure Inv (r : Registry) : Prop where
  nodup : r.loop.activeTimers.Nodup
  length_le : r.loop.activeTimers.length ≤ 1024
  mem_iff : ∀ i, i ∈ r.loop.activeTimers ↔ (r.loop.timers i).platformData = true
  refs_eq : ∀ i, (r.loop.timers i).refs = r.others i + if i ∈ r.loop.activeTimers then 1 else 0

variable {r r' : Registry}

/-- A change of one timer that leaves its membership alone, with the references of others changed as the
count is. -/
theorem Inv.modify (h : Inv r) {i : ℕ} {f : Timer → Timer} {others : ℕ → ℕ}
    (hplatform : (f (r.loop.timers i)).platformData = (r.loop.timers i).platformData)
    (hself : (f (r.loop.timers i)).refs = others i + if i ∈ r.loop.activeTimers then 1 else 0)
    (hothers : ∀ j ≠ i, others j = r.others j) : Inv ⟨r.loop.modify i f, others⟩ where
  nodup := h.nodup
  length_le := h.length_le
  mem_iff j := by
    show j ∈ r.loop.activeTimers ↔ ((r.loop.modify i f).timers j).platformData = true
    rw [h.mem_iff]
    by_cases hj : j = i
    · rw [hj, Loop.modify_self, hplatform]
    · rw [Loop.modify_other _ hj]
  refs_eq j := by
    show ((r.loop.modify i f).timers j).refs = others j + if j ∈ r.loop.activeTimers then 1 else 0
    by_cases hj : j = i
    · rw [hj, Loop.modify_self]
      exact hself
    · rw [Loop.modify_other _ hj, h.refs_eq, ← hothers j hj]

/-- `addTimer` keeps the invariant. -/
theorem Inv.add (h : Inv r) (i : ℕ) (backendOk : Bool) :
    Inv { r with loop := (r.loop.addTimer i backendOk).2 } := by
  cases hadded : (r.loop.addTimer i backendOk).1 with
  | false =>
      rw [Loop.addTimer_eq_false hadded]
      exact h
  | true =>
      obtain ⟨hactive, hself⟩ := Loop.addTimer_eq_true hadded
      have hfree : (r.loop.timers i).platformData = false := by
        by_contra htaken
        rw [Loop.addTimer, if_pos (by simpa using htaken)] at hadded
        exact absurd hadded (by simp)
      have hroom : r.loop.activeTimers.length < 1024 := by
        rw [Loop.addTimer_fst hfree] at hadded
        simp only [Bool.and_eq_true, decide_eq_true_eq] at hadded
        exact hadded.1
      have hnew : i ∉ r.loop.activeTimers := by
        rw [h.mem_iff, hfree]
        simp
      have hother : ∀ j ≠ i, (r.loop.addTimer i backendOk).2.timers j = r.loop.timers j := by
        intro j hj
        rw [Loop.addTimer]
        split_ifs
        · rfl
        · rfl
        · show ((r.loop.modify i _).modify i _).timers j = _
          rw [Loop.modify_other _ hj, Loop.modify_other _ hj]
        · rfl
      constructor
      · rw [hactive]
        exact List.Nodup.append h.nodup (List.nodup_singleton i) (by simpa using hnew)
      · rw [hactive, List.length_append, List.length_singleton]
        exact hroom
      · intro j
        dsimp only
        rw [hactive, List.mem_append, List.mem_singleton]
        by_cases hj : j = i
        · rw [hj, hself]
          simp
        · rw [hother j hj, h.mem_iff]
          simp [hj]
      · intro j
        dsimp only
        rw [hactive]
        by_cases hj : j = i
        · rw [hj, hself]
          dsimp only
          rw [h.refs_eq, if_neg hnew, if_pos (by simp), Nat.add_zero]
        · rw [hother j hj, h.refs_eq]
          simp [hj]

theorem stop_platformData (t : Timer) (settimeOk : Bool) : (t.stop settimeOk).platformData = t.platformData := by
  rw [Timer.stop]
  split_ifs <;> rfl

theorem stop_refs (t : Timer) (settimeOk : Bool) : (t.stop settimeOk).refs = t.refs := by
  rw [Timer.stop]
  split_ifs <;> rfl

theorem release_refs {t : Timer} (h : 0 < t.refs) : t.release.refs + 1 = t.refs := by
  rw [Timer.release]
  split_ifs with hone
  · exact hone.symm
  · show t.refs - 1 + 1 = t.refs
    omega

theorem release_platformData (t : Timer) : t.release.platformData = t.platformData := by
  rw [Timer.release]
  split_ifs <;> rfl

/-- Stopping the timer that is to be removed keeps the invariant. -/
theorem Inv.stopActive (h : Inv r) (i : ℕ) (settimeOk : Bool) :
    Inv { r with loop := r.loop.stopActive i settimeOk } := by
  rw [Loop.stopActive]
  split_ifs
  · exact h.modify (stop_platformData _ _) (by rw [stop_refs, h.refs_eq]) fun _ _ => rfl
  · exact h

/-- The bookkeeping of a removal: the array, and the field and the reference of the timer. -/
theorem Inv.unregister (h : Inv r) {i : ℕ} (hi : i ∈ r.loop.activeTimers) {l : Loop}
    (hactive : l.activeTimers = Loop.swapRemove r.loop.activeTimers (r.loop.activeTimers.idxOf i))
    (hplatform : (l.timers i).platformData = false) (hself : (l.timers i).refs + 1 = (r.loop.timers i).refs)
    (hother : ∀ j ≠ i, l.timers j = r.loop.timers j) : Inv { r with loop := l } := by
  have hperm := Loop.swapRemove_perm hi
  rw [← hactive] at hperm
  have hmem : ∀ j, j ∈ l.activeTimers ↔ j ≠ i ∧ j ∈ r.loop.activeTimers := fun j => by
    rw [hperm.mem_iff, h.nodup.mem_erase_iff]
  constructor
  · exact hperm.nodup_iff.mpr (h.nodup.erase i)
  · show l.activeTimers.length ≤ 1024
    rw [hperm.length_eq, List.length_erase_of_mem hi]
    have hle := h.length_le
    omega
  · intro j
    show j ∈ l.activeTimers ↔ _
    rw [hmem]
    by_cases hj : j = i
    · rw [hj, hplatform]
      simp
    · rw [hother j hj, ← h.mem_iff]
      exact and_iff_right hj
  · intro j
    show _ = r.others j + if j ∈ l.activeTimers then 1 else 0
    rw [if_congr (hmem j) rfl rfl]
    by_cases hj : j = i
    · have hrefs := h.refs_eq i
      rw [if_pos hi] at hrefs
      rw [hj, if_neg (by simp), Nat.add_zero]
      dsimp only
      omega
    · rw [hother j hj, h.refs_eq, if_congr (and_iff_right hj) rfl rfl]

/-- `removeTimer` keeps the invariant, whatever it is stopped by. -/
theorem Inv.remove (h : Inv r) (i : ℕ) (settimeOk backendOk : Bool) :
    Inv { r with loop := (r.loop.removeTimer i settimeOk backendOk).2 } := by
  rw [Loop.removeTimer]
  by_cases hi : i ∈ r.loop.activeTimers
  · rw [if_pos hi]
    dsimp only
    have hstopped := h.stopActive i settimeOk
    generalize hl : r.loop.stopActive i settimeOk = l at *
    have hactive : l.activeTimers = r.loop.activeTimers := by rw [← hl, Loop.stopActive_activeTimers]
    have hmem : i ∈ l.activeTimers := by rwa [hactive]
    have hrefs := hstopped.refs_eq i
    dsimp only at hrefs
    rw [if_pos hmem] at hrefs
    split_ifs
    · exact hstopped
    · refine hstopped.unregister hmem ?_ ?_ ?_ fun j hj => ?_
      · show Loop.swapRemove l.activeTimers (r.loop.activeTimers.idxOf i) =
          Loop.swapRemove l.activeTimers (l.activeTimers.idxOf i)
        rw [hactive]
      · rw [Loop.modify_self, release_platformData]
        dsimp only
        rw [Loop.modify_self]
      · rw [Loop.modify_self]
        dsimp only
        rw [Loop.modify_self, release_refs (by dsimp only; omega)]
      · rw [Loop.modify_other _ hj]
        exact Loop.modify_other l hj fun t => { t with platformData := false }
    · exact hstopped
  · rw [if_neg hi]
    exact h

/-- **One call** keeps the invariant. -/
theorem Inv.step (h : Inv r) (hstep : Step r r') : Inv r' := by
  cases hstep with
  | add i backendOk _ => exact h.add i backendOk
  | remove i settimeOk backendOk => exact h.remove i settimeOk backendOk
  | touch i t hplatform hrefs =>
      exact h.modify hplatform (by rw [hrefs, h.refs_eq]) fun _ _ => rfl
  | retain i _ =>
      refine h.modify rfl ?_ fun j hj => Function.update_of_ne hj _ _
      rw [Function.update_self, Timer.retain]
      dsimp only
      rw [h.refs_eq]
      omega
  | release i hpos =>
      refine h.modify (release_platformData _) ?_ fun j hj => Function.update_of_ne hj _ _
      have hrefs := h.refs_eq i
      have hrelease := @release_refs (r.loop.timers i) (by omega)
      rw [Function.update_self]
      omega
  | create i _ _ _ t hnone hnew =>
      have hrefs := h.refs_eq i
      have hout : i ∉ r.loop.activeTimers := by
        intro hi
        rw [if_pos hi] at hrefs
        omega
      have hfree : (r.loop.timers i).platformData = false := by
        by_contra htaken
        exact hout ((h.mem_iff i).mpr (by simpa using htaken))
      have hone : t.refs = 1 := by
        rw [Timer.new] at hnew
        split_ifs at hnew
        rw [← Option.some.inj hnew]
      refine h.modify (by rw [hfree]; exact (Timer.new_eq_some hnew).2.1) ?_ fun j hj => Function.update_of_ne hj _ _
      rw [Function.update_self, if_neg hout]
      exact hone

/-- **The registry over whole runs.** After any sequence of calls the invariant holds. -/
theorem reachable_inv (h : Reachable r) : Inv r := by
  induction h with
  | initial timers htimers =>
      exact ⟨List.nodup_nil, Nat.zero_le _, fun i => by simp [initial, (htimers i).1],
        fun i => by simp [initial, (htimers i).2]⟩
  | step _ hstep ih => exact ih.step hstep

/-- A timer of a second that exists and belongs to no loop. -/
def sampleTimer : Timer := ⟨true, 1000, true, false, false, 1, (0, 0), (0, 0)⟩

/-- A loop without timers, where timer 7 exists. -/
def sampleRegistry : Registry :=
  ⟨(initial fun _ => { sampleTimer with refs := 0 }).loop.modify 7 fun _ => sampleTimer,
    Function.update (fun _ => 0) 7 1⟩

/-- Timer 7 is added. -/
theorem reachable_inv_sample : Inv { sampleRegistry with loop := (sampleRegistry.loop.addTimer 7 true).2 } :=
  reachable_inv (.step
    (.step (.initial _ fun _ => ⟨rfl, rfl⟩) (.create 7 true true 1000 sampleTimer rfl rfl))
    (.add 7 true (by decide)))

end Registry

end EventLoop
