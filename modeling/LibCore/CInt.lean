import Mathlib.Tactic

/-!
# The Numbers of C

An `int` has 32 bits and a `size_t` has 64. A conversion between the two keeps the low bits; a sum or a
difference that leaves `int` has no value at all, and where one is formed the embedding asks for `FitsInt`.

## Main definitions

* `FitsInt`: the values of an `int`.
* `intOfSize`, `sizeOfInt`: the conversions.
-/

/-- `INT_MAX`. -/
def intMax : ℤ := 2147483647

/-- A value of an `int`. -/
def FitsInt (z : ℤ) : Prop := -2147483648 ≤ z ∧ z ≤ 2147483647

instance : DecidablePred FitsInt := fun _ => inferInstanceAs (Decidable (_ ∧ _))

/-- A length that an `int` holds, as long as it is not above `INT_MAX`. -/
theorem fitsInt_natCast {n : ℕ} : FitsInt n ↔ n ≤ 2147483647 := by
  rw [FitsInt]
  omega

/-- The conversion of a `size_t` to `int`. -/
def intOfSize (n : ℕ) : ℤ := Int.bmod n (2 ^ 32)

/-- The conversion of an `int` to `size_t`. -/
def sizeOfInt (z : ℤ) : ℕ := (z % 2 ^ 64).toNat

theorem sizeOfInt_natCast {n : ℕ} (h : (n : ℤ) ≤ intMax) : sizeOfInt n = n := by
  rw [sizeOfInt]
  rw [intMax] at h
  omega

theorem bmod_of_le {z : ℤ} (h0 : 0 ≤ z) (h : z ≤ intMax) : Int.bmod z (2 ^ 32) = z := by
  rw [intMax] at h
  refine Int.bmod_eq_of_le ?_ ?_
  · norm_num
    omega
  · norm_num
    omega

theorem intOfSize_of_le {n : ℕ} (h : (n : ℤ) ≤ intMax) : intOfSize n = n :=
  bmod_of_le (Int.natCast_nonneg n) h

theorem intOfSize_le (n : ℕ) : intOfSize n ≤ intMax := by
  have hlt : intOfSize n < 2147483648 := @Int.bmod_lt (n : ℤ) (2 ^ 32) (by norm_num)
  exact Int.lt_add_one_iff.mp hlt
