import Mathlib.Algebra.Ring.GeomSum
import Mathlib.Data.Fintype.EquivFin
import Mathlib.Data.Int.ModEq
import Mathlib.Tactic

/-!
# Linear Congruential Generators

The map `x ↦ a * x + c` modulo a power of two, where `a` is one more than a multiple of four and `c` is odd.
It goes through all numbers below the modulus. The `n`-th iterate adds a multiple of `1 + a + ... + a ^ (n - 1)`
by an odd number, and that sum has as many factors two as `n`.

## Main results

* `two_pow_dvd_of_dvd_sum`: the sum is a multiple of a power of two only if the number of its terms is.
* `exists_iterate_eq`: every number is reached from every other in fewer steps than there are numbers.
-/

namespace Lcg

open Finset

/-- One step. -/
def next (a c m x : ℕ) : ℕ := (a * x + c) % m

variable {a c k m n x y : ℕ}

/-! ### The sums -/

theorem sum_pow_mod_two (ha : a % 2 = 1) (n : ℕ) : (∑ i ∈ range n, a ^ i) % 2 = n % 2 := by
  induction n with
  | zero => rfl
  | succ n ih =>
      have hpow : a ^ n % 2 = 1 := by simp [Nat.pow_mod, ha]
      rw [sum_range_succ]
      omega

theorem sum_pow_two_mul (a n : ℕ) : ∑ i ∈ range (2 * n), a ^ i = (∑ i ∈ range n, a ^ i) * (1 + a ^ n) := by
  rw [two_mul, sum_range_add, mul_add, mul_one, sum_mul]
  refine congrArg _ (sum_congr rfl fun i _ => ?_)
  rw [pow_add, mul_comm]

/-- **Factors two** of the sum are factors two of the number of its terms. -/
theorem two_pow_dvd_of_dvd_sum (ha : a % 4 = 1) (h : 2 ^ k ∣ ∑ i ∈ range n, a ^ i) : 2 ^ k ∣ n := by
  induction n using Nat.strong_induction_on generalizing k with
  | _ n ih =>
      have hodd : a % 2 = 1 := by omega
      cases k with
      | zero => exact one_dvd n
      | succ k =>
          -- the number of terms is even, and half as many terms have one factor less
          have heven : n % 2 = 0 := by
            rw [← sum_pow_mod_two hodd n]
            exact Nat.mod_eq_zero_of_dvd ((Dvd.intro_left _ (pow_succ 2 k).symm).trans h)
          obtain ⟨j, rfl⟩ : ∃ j, n = 2 * j := ⟨n / 2, by omega⟩
          rcases Nat.eq_zero_or_pos j with rfl | hj
          · exact dvd_zero _
          have hmod : a ^ j % 4 = 1 := by simp [Nat.pow_mod, ha]
          obtain ⟨q, hq⟩ : ∃ q, 1 + a ^ j = 2 * (2 * q + 1) := ⟨a ^ j / 4, by omega⟩
          rw [sum_pow_two_mul, hq, ← mul_assoc, mul_comm _ 2, mul_assoc, pow_succ',
            Nat.mul_dvd_mul_iff_left two_pos] at h
          have hcoprime : Nat.Coprime (2 ^ k) (2 * q + 1) :=
            Nat.Coprime.pow_left k (Nat.coprime_two_left.mpr (odd_two_mul_add_one q))
          rw [pow_succ']
          exact Nat.mul_dvd_mul_left 2 (ih j (by omega) (hcoprime.dvd_of_dvd_mul_right h))

/-! ### The orbit -/

theorem next_lt (hm : 0 < m) (x : ℕ) : next a c m x < m := Nat.mod_lt _ hm

theorem iterate_next_lt (hx : x < m) (n : ℕ) : (next a c m)^[n] x < m := by
  cases n with
  | zero => exact hx
  | succ n =>
      rw [Function.iterate_succ_apply']
      exact next_lt (Nat.zero_lt_of_lt hx) _

/-- The iterates of the map. -/
theorem iterate_next_modEq (a c m x n : ℕ) :
    (next a c m)^[n] x ≡ a ^ n * x + c * ∑ i ∈ range n, a ^ i [MOD m] := by
  induction n with
  | zero => simp [Nat.ModEq]
  | succ n ih =>
      have hstep : next a c m ((next a c m)^[n] x) ≡ a * (a ^ n * x + c * ∑ i ∈ range n, a ^ i) +
        c [MOD m] :=
        (Nat.mod_modEq _ _).trans ((ih.mul_left a).add_right c)
      have hsum : a * (∑ i ∈ range n, a ^ i) + 1 = ∑ i ∈ range (n + 1), a ^ i := by
        rw [sum_range_succ', pow_zero, mul_sum]
        exact congrArg (· + 1) (sum_congr rfl fun i _ => (pow_succ' a i).symm)
      rw [Function.iterate_succ_apply']
      have heq : a * (a ^ n * x + c * ∑ i ∈ range n, a ^ i) + c =
          a ^ (n + 1) * x + c * ∑ i ∈ range (n + 1), a ^ i := by
        rw [← hsum]
        ring
      rwa [heq] at hstep

/-- A number comes back only after a multiple of the modulus. -/
theorem two_pow_dvd_of_iterate_eq (ha : a % 4 = 1) (hc : c % 2 = 1)
    (h : (next a c (2 ^ k))^[n] x = x) : 2 ^ k ∣ n := by
  have hmod := iterate_next_modEq a c (2 ^ k) x n
  rw [h] at hmod
  have hgeom := geom_sum_mul (a : ℤ) n
  have hdvd : ((2 ^ k : ℕ) : ℤ) ∣ (∑ i ∈ range n, (a : ℤ) ^ i) * ((a - 1) * x + c) := by
    have hdiff := (Nat.modEq_iff_dvd.mp hmod)
    have heq : ((a ^ n * x + c * ∑ i ∈ range n, a ^ i : ℕ) : ℤ) - x =
        (∑ i ∈ range n, (a : ℤ) ^ i) * ((a - 1) * x + c) := by
      push_cast
      linear_combination -(x : ℤ) * hgeom
    rwa [heq] at hdiff
  have hodd : Odd (((a : ℤ) - 1) * x + c) := by
    have hfour : (a : ℤ) % 4 = 1 := by exact_mod_cast ha
    have htwo : (c : ℤ) % 2 = 1 := by exact_mod_cast hc
    have hprod : ((a : ℤ) - 1) * x % 2 = 0 := by
      rw [Int.mul_emod, show ((a : ℤ) - 1) % 2 = 0 by omega, zero_mul, Int.zero_emod]
    exact Int.odd_iff.mpr (by omega)
  have hcoprime : IsCoprime ((2 ^ k : ℕ) : ℤ) (((a : ℤ) - 1) * x + c) := by
    push_cast
    exact IsCoprime.pow_left (Int.isCoprime_two_left.mpr hodd)
  refine two_pow_dvd_of_dvd_sum ha (Int.natCast_dvd_natCast.mp ?_)
  push_cast
  have hsum := hcoprime.dvd_of_dvd_mul_right hdvd
  push_cast at hsum
  exact hsum

/-- **Every number is reached** from every other. -/
theorem exists_iterate_eq (ha : a % 4 = 1) (hc : c % 2 = 1) (hx : x < 2 ^ k) (hy : y < 2 ^ k) :
    ∃ n < 2 ^ k, (next a c (2 ^ k))^[n] x = y := by
  let orbit : Fin (2 ^ k) → Fin (2 ^ k) := fun n => ⟨(next a c (2 ^ k))^[n] x, iterate_next_lt hx n⟩
  have hle : ∀ i j : Fin (2 ^ k), i ≤ j → orbit i = orbit j → i = j := by
    intro i j hij heq
    have hback : (next a c (2 ^ k))^[j - i] ((next a c (2 ^ k))^[i] x) = (next a c (2 ^ k))^[i] x := by
      rw [← Function.iterate_add_apply, Nat.sub_add_cancel hij]
      exact (congrArg Fin.val heq).symm
    have hdvd := two_pow_dvd_of_iterate_eq ha hc hback
    have hzero := Nat.eq_zero_of_dvd_of_lt hdvd ((Nat.sub_le _ _).trans_lt j.isLt)
    exact Fin.ext (by have hle : (i : ℕ) ≤ j := hij; omega)
  have hinjective : Function.Injective orbit := by
    intro i j heq
    rcases le_total i j with hij | hij
    · exact hle i j hij heq
    · exact (hle j i hij heq.symm).symm
  obtain ⟨n, hn⟩ := Finite.surjective_of_injective hinjective ⟨y, hy⟩
  exact ⟨n, n.isLt, congrArg Fin.val hn⟩

end Lcg
