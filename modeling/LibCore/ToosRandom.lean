import LibCore.Lcg
import LibCore.ToosBuild

/-!
# ToosType: Random Numbers Below a Bound

`bounded_rand` and `bounded_rand64` draw until a number is not below a threshold. The generator reaches every
state from every other, so it reaches the one whose number is the largest, and that one is never below a
threshold.

## Main results

* `exists_iterate_lcgNext`: the generator has full period.
* `rand_terminates`: both loops end, and both results are below their bounds.
-/

namespace ToosType

/-! ### The generator -/

theorem toNat_lcgNext (state : UInt64) : (lcgNext state).toNat =
    Lcg.next 6364136223846793005 1442695040888963407 (2 ^ 64) state.toNat := by
  rw [lcgNext, Lcg.next, UInt64.toNat_add, UInt64.toNat_mul, Nat.mod_add_mod, Nat.mul_comm]
  rfl

theorem toNat_iterate_lcgNext (state : UInt64) (n : ℕ) : (lcgNext^[n] state).toNat =
    (Lcg.next 6364136223846793005 1442695040888963407 (2 ^ 64))^[n] state.toNat :=
  Function.Semiconj.iterate_right toNat_lcgNext n state

/-- **Every state is reached** from every other. -/
theorem exists_iterate_lcgNext (state target : UInt64) : ∃ n < 2 ^ 64, lcgNext^[n] state = target := by
  obtain ⟨n, hn, heq⟩ := @Lcg.exists_iterate_eq 6364136223846793005 1442695040888963407 64 _ _ (by decide)
    (by decide) state.toNat_lt target.toNat_lt
  exact ⟨n, hn, UInt64.toNat_inj.mp ((toNat_iterate_lcgNext state n).trans heq)⟩

/-! ### The loops -/

/-- The `n`-th number of the loop of `bounded_rand`. -/
def draws (state : UInt64) (n : ℕ) : UInt32 := (localRandNext (lcgNext^[n] state)).1

/-- The `n`-th number of the loop of `bounded_rand64`. -/
def draws64 (state : UInt64) (n : ℕ) : UInt64 := lcgNext (lcgNext^[n] state)

theorem draws_succ (state : UInt64) (n : ℕ) : draws state (n + 1) = draws (lcgNext state) n := by
  rw [draws, draws, Function.iterate_succ_apply]

theorem draws64_succ (state : UInt64) (n : ℕ) : draws64 state (n + 1) = draws64 (lcgNext state) n := by
  rw [draws64, draws64, Function.iterate_succ_apply]

/-- The first `n` numbers are below the threshold, and the next one is not. -/
def StopsAt {α : Type} [LT α] (draws : ℕ → α) (threshold : α) (n : ℕ) : Prop :=
  (∀ m < n, draws m < threshold) ∧ ¬draws n < threshold

theorem StopsAt.succ {α : Type} [LT α] {f g : ℕ → α} {threshold : α} {n : ℕ}
    (h : StopsAt f threshold (n + 1))
    (hfg : ∀ m, f (m + 1) = g m) : StopsAt g threshold n :=
  ⟨fun m hm => hfg m ▸ h.1 (m + 1) (Nat.succ_lt_succ hm), hfg n ▸ h.2⟩

theorem exists_stopsAt {α : Type} [LT α] {draws : ℕ → α} {threshold : α} {top n : ℕ} (hn : n < top)
    (h : ¬draws n < threshold) : ∃ n < top, StopsAt draws threshold n := by
  classical
  have hsome : ∃ n, ¬draws n < threshold := ⟨n, h⟩
  refine ⟨Nat.find hsome, (Nat.find_le h).trans_lt hn, fun m hm => ?_, Nat.find_spec hsome⟩
  exact not_not.mp (Nat.find_min hsome hm)

/-- The loop ends with the first number that is not below the threshold. -/
theorem randLoop_of_stopsAt {threshold : UInt32} {state : UInt64} {n fuel : ℕ}
    (h : StopsAt (draws state) threshold n) (hfuel : n < fuel) :
    randLoop threshold fuel state = (draws state n, lcgNext^[n + 1] state) := by
  induction n generalizing state fuel with
  | zero =>
      obtain ⟨fuel, rfl⟩ := Nat.exists_eq_succ_of_ne_zero hfuel.ne'
      have haccept : ¬(localRandNext state).1 < threshold := h.2
      rw [randLoop, if_neg haccept]
      rfl
  | succ n ih =>
      obtain ⟨fuel, rfl⟩ := Nat.exists_eq_succ_of_ne_zero (Nat.ne_of_gt (Nat.zero_lt_of_lt hfuel))
      have hreject : (localRandNext state).1 < threshold := h.1 0 (Nat.succ_pos n)
      have hrest := ih (h.succ (draws_succ state)) (Nat.lt_of_succ_lt_succ hfuel)
      rw [randLoop, if_pos hreject, draws_succ, Function.iterate_succ_apply, ← hrest]
      rfl

theorem randLoop64_of_stopsAt {threshold state : UInt64} {n fuel : ℕ}
    (h : StopsAt (draws64 state) threshold n) (hfuel : n < fuel) :
    randLoop64 threshold fuel state = (draws64 state n, lcgNext^[n + 1] state) := by
  induction n generalizing state fuel with
  | zero =>
      obtain ⟨fuel, rfl⟩ := Nat.exists_eq_succ_of_ne_zero hfuel.ne'
      have haccept : ¬lcgNext state < threshold := h.2
      rw [randLoop64, if_neg haccept]
      rfl
  | succ n ih =>
      obtain ⟨fuel, rfl⟩ := Nat.exists_eq_succ_of_ne_zero (Nat.ne_of_gt (Nat.zero_lt_of_lt hfuel))
      have hreject : lcgNext state < threshold := h.1 0 (Nat.succ_pos n)
      have hrest := ih (h.succ (draws64_succ state)) (Nat.lt_of_succ_lt_succ hfuel)
      rw [randLoop64, if_pos hreject, draws64_succ, Function.iterate_succ_apply, ← hrest]

/-- Some number is the largest. -/
theorem exists_draws_eq_max (state : UInt64) :
    ∃ n < 2 ^ 64, draws state n = 0xFFFFFFFF ∧ draws64 state n = 0xFFFFFFFFFFFFFFFF := by
  obtain ⟨n, hn, hmax⟩ := exists_iterate_lcgNext (lcgNext state) 0xFFFFFFFFFFFFFFFF
  have hnext : draws64 state n = 0xFFFFFFFFFFFFFFFF := by
    rw [draws64, ← Function.iterate_succ_apply' lcgNext, Function.iterate_succ_apply, hmax]
  have hupper : ((0xFFFFFFFFFFFFFFFF : UInt64) >>> 32).toUInt32 = 0xFFFFFFFF := by decide
  have hdraw : draws state n = (draws64 state n >>> 32).toUInt32 := rfl
  exact ⟨n, hn, by rw [hdraw, hnext, hupper], hnext⟩

theorem exists_draws_stopsAt (state : UInt64) (threshold : UInt32) :
    ∃ n < 2 ^ 64, StopsAt (draws state) threshold n := by
  obtain ⟨n, hn, hmax, -⟩ := exists_draws_eq_max state
  refine exists_stopsAt hn ?_
  have hle := Nat.le_of_lt_succ threshold.toNat_lt
  rw [hmax, UInt32.lt_iff_toNat_lt]
  exact Nat.not_lt.mpr hle

theorem exists_draws64_stopsAt (state threshold : UInt64) :
    ∃ n < 2 ^ 64, StopsAt (draws64 state) threshold n := by
  obtain ⟨n, hn, -, hmax⟩ := exists_draws_eq_max state
  refine exists_stopsAt hn ?_
  have hle := Nat.le_of_lt_succ threshold.toNat_lt
  rw [hmax, UInt64.lt_iff_toNat_lt]
  exact Nat.not_lt.mpr hle

/-- **The loops end** from every state and for every bound, with a result below the bound. -/
theorem rand_terminates (state : UInt64) :
    (∀ bound : UInt32, 1 ≤ bound → (boundedRand state bound).1 < bound ∧
      (bound = 1 ∨ ∃ n < 2 ^ 64, StopsAt (draws state) ((0 - bound) % bound) n ∧
        boundedRand state bound = (draws state n % bound, lcgNext^[n + 1] state))) ∧
    ∀ bound : UInt64, 1 ≤ bound → (boundedRand64 state bound).1 < bound ∧
      (bound = 1 ∨ ∃ n < 2 ^ 64, StopsAt (draws64 state) ((0 - bound) % bound) n ∧
        boundedRand64 state bound = (draws64 state n % bound, lcgNext^[n + 1] state)) := by
  constructor
  · intro bound hbound
    have hpos : 0 < bound.toNat := UInt32.le_iff_toNat_le.mp hbound
    refine ⟨UInt32.lt_iff_toNat_lt.mpr (SpawnEngine.boundedRand_lt state hpos), ?_⟩
    by_cases hone : bound = 1
    · exact .inl hone
    have hzero : bound ≠ 0 := by
      rintro rfl
      exact absurd hpos (lt_irrefl 0)
    obtain ⟨n, hn, hstops⟩ := exists_draws_stopsAt state ((0 - bound) % bound)
    refine .inr ⟨n, hn, hstops, ?_⟩
    rw [boundedRand, if_neg (not_or_intro hzero hone), randLoop_of_stopsAt hstops hn]
  · intro bound hbound
    have hpos : 0 < bound.toNat := UInt64.le_iff_toNat_le.mp hbound
    by_cases hone : bound = 1
    · subst hone
      have hresult : boundedRand64 state 1 = (0, state) := by rw [boundedRand64, if_pos (.inr rfl)]
      rw [hresult]
      exact ⟨UInt64.lt_iff_toNat_lt.mpr Nat.one_pos, .inl rfl⟩
    have hzero : bound ≠ 0 := by
      rintro rfl
      exact absurd hpos (lt_irrefl 0)
    obtain ⟨n, hn, hstops⟩ := exists_draws64_stopsAt state ((0 - bound) % bound)
    have heq : boundedRand64 state bound = (draws64 state n % bound, lcgNext^[n + 1] state) := by
      rw [boundedRand64, if_neg (not_or_intro hzero hone), randLoop64_of_stopsAt hstops hn]
    refine ⟨?_, .inr ⟨n, hn, hstops, heq⟩⟩
    rw [heq, UInt64.lt_iff_toNat_lt, UInt64.toNat_mod]
    exact Nat.mod_lt _ hpos

theorem rand_terminates_die : (boundedRand 42 6).1 < 6 ∧ (boundedRand64 42 6).1 < 6 :=
  ⟨((rand_terminates 42).1 6 (by decide)).1, ((rand_terminates 42).2 6 (by decide)).1⟩

end ToosType
