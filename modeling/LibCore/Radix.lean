import Mathlib.Data.Nat.Digits.Lemmas
import Mathlib.Tactic
import LibCore.Bytes

/-!
# Positional Numerals

Numbers written in a base, with the leading digit first, as programs read and write them: a
reader folds `acc * b + d` over the digits, a writer divides by the base until nothing is
left. The digits of a number are those of `Nat.digits`, which has them in the other order.

Nothing here names a program.

## Main results

* `value_digits`, `digits_value`: reading undoes writing, and writing undoes reading for
  numerals without a leading zero.
* `value_lt`: a numeral of `n` digits is below `b ^ n`.
* `decimalValue_decimal`: decimal texts.
-/

open CString

namespace Radix

/-- The number a list of digits stands for in base `b`, leading digit first. -/
def value (b : ℕ) (ds : List ℕ) : ℕ := ds.foldl (fun acc d => acc * b + d) 0

/-- The loop that divides by the base, for at most `fuel` digits, last digit first. -/
def digitLoop (b : ℕ) : ℕ → ℕ → List ℕ
  | 0, _ => []
  | fuel + 1, n => if n = 0 then [] else n % b :: digitLoop b fuel (n / b)

variable {b : ℕ}

theorem foldl_eq (acc : ℕ) (ds : List ℕ) :
    ds.foldl (fun acc d => acc * b + d) acc = acc * b ^ ds.length + value b ds := by
  induction ds generalizing acc with
  | nil => simp [value]
  | cons d ds ih =>
      rw [value, List.foldl_cons, List.foldl_cons, ih, ih (0 * b + d), List.length_cons]
      ring

@[simp] theorem value_nil : value b [] = 0 := rfl

theorem value_cons (d : ℕ) (ds : List ℕ) :
    value b (d :: ds) = d * b ^ ds.length + value b ds := by
  rw [value, List.foldl_cons, foldl_eq]
  simp

theorem value_append (ds es : List ℕ) :
    value b (ds ++ es) = value b ds * b ^ es.length + value b es := by
  rw [value, List.foldl_append, foldl_eq]
  rfl

/-- A numeral is what `Nat.ofDigits` makes of it, read backwards. -/
theorem value_eq_ofDigits (ds : List ℕ) : value b ds = Nat.ofDigits b ds.reverse := by
  induction ds with
  | nil => rfl
  | cons d ds ih =>
      rw [value_cons, List.reverse_cons, Nat.ofDigits_append, ih, List.length_reverse,
        Nat.ofDigits_singleton]
      ring

theorem value_lt (hb : 1 < b) {ds : List ℕ} (h : ∀ d ∈ ds, d < b) :
    value b ds < b ^ ds.length := by
  rw [value_eq_ofDigits, ← List.length_reverse]
  exact Nat.ofDigits_lt_base_pow_length hb (by simpa using h)

/-- Enough rounds of the loop give all digits. -/
theorem digitLoop_eq (hb : 1 < b) {fuel n : ℕ} (h : n < b ^ fuel) :
    digitLoop b fuel n = Nat.digits b n := by
  induction fuel generalizing n with
  | zero =>
      obtain rfl : n = 0 := by simpa using h
      simp [digitLoop]
  | succ fuel ih =>
      rw [digitLoop]
      split
      · rename_i hn
        simp [hn]
      · rename_i hn
        rw [Nat.digits_def' hb (Nat.pos_of_ne_zero hn), ih]
        rw [pow_succ] at h
        exact Nat.div_lt_of_lt_mul (by rwa [mul_comm])

/-- Reading undoes writing. -/
theorem value_digits (n : ℕ) : value b (Nat.digits b n).reverse = n := by
  rw [value_eq_ofDigits, List.reverse_reverse, Nat.ofDigits_digits]

/-- Writing undoes reading, for a numeral without a leading zero. -/
theorem digits_value (hb : 1 < b) {ds : List ℕ} (h : ∀ d ∈ ds, d < b)
    (hlead : ds.head? ≠ some 0) : Nat.digits b (value b ds) = ds.reverse := by
  rw [value_eq_ofDigits]
  refine Nat.digits_ofDigits b hb _ (by simpa using h) ?_
  intro hne hlast
  apply hlead
  rw [List.getLast_reverse] at hlast
  rw [List.head?_eq_some_head (by simpa using hne), hlast]

/-- A leading digit makes a number large. -/
theorem le_value_of_head {d : ℕ} (hd : d ≠ 0) (ds : List ℕ) :
    b ^ ds.length ≤ value b (d :: ds) := by
  rw [value_cons]
  calc b ^ ds.length ≤ d * b ^ ds.length := Nat.le_mul_of_pos_left _ (Nat.pos_of_ne_zero hd)
    _ ≤ d * b ^ ds.length + value b ds := Nat.le_add_right _ _

/-! ### Decimal texts -/

/-- The character of a decimal digit. -/
def digitByte (d : ℕ) : UInt8 := UInt8.ofNat (0x30 + d)

/-- A number in decimal, as `%u` prints it. -/
def decimal (n : ℕ) : Bytes :=
  if n = 0 then [0x30] else (digitLoop 10 n n).reverse.map digitByte

/-- The number a text of decimal digits stands for. -/
def decimalValue (s : Bytes) : ℕ := value 10 (s.map fun c => c.toNat - 0x30)

theorem toNat_digitByte {d : ℕ} (h : d < 10) : (digitByte d).toNat = 0x30 + d := by
  rw [digitByte, UInt8.toNat_ofNat']
  omega

theorem isdigit_digitByte {d : ℕ} (h : d < 10) : isdigit (digitByte d) = true := by
  have hd := toNat_digitByte h
  simp only [isdigit, Bool.and_eq_true, decide_eq_true_eq, UInt8.le_iff_toNat_le, hd,
    UInt8.reduceToNat]
  omega

theorem isdigit_iff {c : UInt8} : isdigit c = true ↔ 0x30 ≤ c.toNat ∧ c.toNat ≤ 0x39 := by
  simp [isdigit, UInt8.le_iff_toNat_le]

/-- Digits are neither white space nor signs. -/
theorem isdigit_head {c : UInt8} (h : isdigit c = true) : isspace c = false ∧ c ≠ 0x2B ∧ c ≠ 0x2D := by
  revert c
  decide +kernel

theorem decimal_of_ne_zero {n : ℕ} (h : n ≠ 0) :
    decimal n = (Nat.digits 10 n).reverse.map digitByte := by
  rw [decimal, if_neg h, digitLoop_eq (by omega) (Nat.lt_pow_self (by decide))]

/-- A number in decimal has digits only. -/
theorem isdigit_of_mem_decimal {n : ℕ} {c : UInt8} (h : c ∈ decimal n) : isdigit c = true := by
  by_cases hn : n = 0
  · rw [decimal, if_pos hn, List.mem_singleton] at h
    rw [h]
    decide
  · rw [decimal_of_ne_zero hn] at h
    obtain ⟨d, hd, rfl⟩ := List.mem_map.mp h
    exact isdigit_digitByte (Nat.digits_lt_base (by omega) (List.mem_reverse.mp hd))

theorem decimal_ne_nil (n : ℕ) : decimal n ≠ [] := by
  by_cases hn : n = 0
  · simp [decimal, hn]
  · simp [decimal_of_ne_zero hn, Nat.digits_ne_nil_iff_ne_zero, hn]

/-- A number in decimal has no leading zero. -/
theorem decimal_head_ne_zero {n : ℕ} (hn : n ≠ 0) : (decimal n).head? ≠ some 0x30 := by
  rw [decimal_of_ne_zero hn, List.head?_map, List.head?_reverse,
    List.getLast?_eq_some_getLast (Nat.digits_ne_nil_iff_ne_zero.mpr hn), Option.map_some,
    ne_eq, Option.some.injEq]
  intro hzero
  have hlt : (Nat.digits 10 n).getLast (Nat.digits_ne_nil_iff_ne_zero.mpr hn) < 10 :=
    Nat.digits_lt_base (by norm_num) (List.getLast_mem _)
  have hvalue := toNat_digitByte hlt
  rw [hzero] at hvalue
  exact Nat.getLast_digit_ne_zero 10 hn (by simpa using hvalue)

/-- A number below a power of ten has no more digits than that. -/
theorem length_decimal_le {n k : ℕ} (hk : 0 < k) (h : n < 10 ^ k) : (decimal n).length ≤ k := by
  by_cases hn : n = 0
  · rw [hn]
    exact hk
  · rw [decimal_of_ne_zero hn, List.length_map, List.length_reverse]
    exact (Nat.digits_length_le_iff (by omega) n).mpr h

/-- **Reading a decimal text** gives the number back. -/
@[simp] theorem decimalValue_decimal (n : ℕ) : decimalValue (decimal n) = n := by
  by_cases hn : n = 0
  · rw [hn]
    decide
  · have hmap : ((Nat.digits 10 n).reverse.map digitByte).map (fun c => c.toNat - 0x30) =
        (Nat.digits 10 n).reverse := by
      rw [List.map_map]
      conv_rhs => rw [← List.map_id (Nat.digits 10 n).reverse]
      refine List.map_congr_left fun d hd => ?_
      have hlt : d < 10 := Nat.digits_lt_base (by omega) (List.mem_reverse.mp hd)
      rw [Function.comp_apply, toNat_digitByte hlt, Nat.add_sub_cancel_left, id]
    rw [decimal_of_ne_zero hn, decimalValue, hmap, value_digits]

/-- A decimal text without superfluous zeros. -/
def IsDecimal (s : Bytes) : Prop :=
  s ≠ [] ∧ (∀ c ∈ s, isdigit c = true) ∧ (s.head? = some 0x30 → s = [0x30])

instance : DecidablePred IsDecimal := fun _ => inferInstanceAs (Decidable (_ ∧ _ ∧ _))

/-- Such a text is what `%u` prints for its value. -/
theorem decimal_decimalValue {s : Bytes} (h : IsDecimal s) : decimal (decimalValue s) = s := by
  obtain ⟨hne, hdigit, hzero⟩ := h
  by_cases hlead : s.head? = some 0x30
  · rw [hzero hlead]
    decide
  · have hlt : ∀ d ∈ s.map (fun c => c.toNat - 0x30), d < 10 := by
      intro d hd
      obtain ⟨c, hc, rfl⟩ := List.mem_map.mp hd
      have := isdigit_iff.mp (hdigit c hc)
      omega
    have hhead : (s.map fun c => c.toNat - 0x30).head? ≠ some 0 := by
      obtain ⟨c, t, rfl⟩ := List.exists_cons_of_ne_nil hne
      have := isdigit_iff.mp (hdigit c (by simp))
      simp only [List.map_cons, List.head?_cons, ne_eq, Option.some.injEq] at hlead ⊢
      intro h0
      apply hlead
      rw [← UInt8.toNat_inj]
      simp
      omega
    have hpos : decimalValue s ≠ 0 := by
      obtain ⟨c, t, rfl⟩ := List.exists_cons_of_ne_nil hne
      have hle := le_value_of_head (b := 10) (d := c.toNat - 0x30)
        (by simpa using hhead) (t.map fun c => c.toNat - 0x30)
      have hpow : 0 < 10 ^ (t.map fun c => c.toNat - 0x30).length := by positivity
      rw [decimalValue, List.map_cons]
      omega
    rw [decimal_of_ne_zero hpos, decimalValue, digits_value (by omega) hlt hhead,
      List.reverse_reverse, List.map_map]
    conv_rhs => rw [← List.map_id s]
    refine List.map_congr_left fun c hc => ?_
    have := isdigit_iff.mp (hdigit c hc)
    rw [Function.comp_apply, id, ← UInt8.toNat_inj, toNat_digitByte (by omega)]
    omega

end Radix
