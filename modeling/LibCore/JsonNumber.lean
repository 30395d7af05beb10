import Mathlib.Data.List.DropRight
import LibCore.JsonGrammar
import LibCore.Radix

/-!
# JSON Numbers on the Wire

A JSON number is printed with `%g`, that is with six significant digits. The embedding of the conversion
follows the C standard for the doubles that hold an integer; in which direction a number with more digits is
rounded is left open. A text of the grammar of numbers stands for a rational.

## Main definitions

* `numberValue`, `Denotes`: what a number text stands for.
* `formatG`: the conversion `%g` of a double that holds an integer.

## Main results

* `numberValue_formatG`: what the printed text stands for.
* `stringify_number_iff`: the integers that are printed as they are.
-/

open CString Radix

namespace Json

/-! ### The number a text stands for -/

/-- The value of `exp`, behind the letter. -/
def exponentValue (s : Bytes) : ℤ :=
  if s.head? = some 0x2D then -decimalValue s.tail
  else if s.head? = some 0x2B then decimalValue s.tail
  else decimalValue s

/-- The value of what follows the integer part: `int` are the digits so far. -/
def fractionValue (int s : Bytes) : ℚ :=
  let frac := if s.head? = some 0x2E then s.tail.takeWhile isdigit else []
  let exp := if s.head? = some 0x2E then s.tail.dropWhile isdigit else s
  decimalValue (int ++ frac) * 10 ^ ((if exp = [] then 0 else exponentValue exp.tail) - frac.length)

/-- The value of a text of `number`. -/
def numberValue (s : Bytes) : ℚ :=
  let abs := if s.head? = some 0x2D then s.tail else s
  (if s.head? = some 0x2D then -1 else 1) * fractionValue (abs.takeWhile isdigit) (abs.dropWhile isdigit)

/-- The text is a number and stands for `q`. -/
def Denotes (s : Bytes) (q : ℚ) : Prop := IsNumber s ∧ numberValue s = q

/-! ### The conversion -/

/-- `a` rounded to six significant digits, as an integer of six digits and the exponent of its leading
digit. The rounding that goes up may carry into a seventh digit. -/
def roundG (up : Bool) (a : ℕ) : ℕ × ℕ :=
  let dropped := 10 ^ (Nat.log 10 a - 5)
  let m := if a % dropped ≠ 0 ∧ up = true then a / dropped + 1 else a / dropped
  if m = 10 ^ 6 then (10 ^ 5, Nat.log 10 a + 1) else (m, Nat.log 10 a)

/-- The exponent as it is printed: a sign and at least two digits. -/
def exponentText (x : ℕ) : Bytes := 0x2B :: if x < 10 then 0x30 :: decimal x else decimal x

/-- Style `e`: one digit, the others as a fraction without its trailing zeros, and the exponent. -/
def styleE (m x : ℕ) : Bytes :=
  let frac := (decimal m).tail.rdropWhile (· = 0x30)
  (decimal m).take 1 ++ (if frac = [] then [] else 0x2E :: frac) ++
    0x65 :: exponentText x

/-- `snprintf` with `%g` of a double that holds the integer `n`: style `f` below six digits, where nothing is
left of the fraction, and style `e` from there on. `up` says which integers are rounded away from zero. -/
def formatG (up : ℤ → Bool) (n : ℤ) : Bytes :=
  (if n < 0 then [0x2D] else []) ++
    if Nat.log 10 n.natAbs < 6 then decimal n.natAbs
    else styleE (roundG (up n) n.natAbs).1 (roundG (up n) n.natAbs).2

/-! ### Reading the text -/

theorem decimalValue_append_zeros (s : Bytes) (k : ℕ) :
    decimalValue (s ++ List.replicate k 0x30) = decimalValue s * 10 ^ k := by
  have hzeros : value 10 (List.replicate k 0) = 0 := by
    rw [value_eq_ofDigits, List.reverse_replicate, Nat.ofDigits_replicate_zero]
  rw [decimalValue, List.map_append, List.map_replicate, value_append]
  simpa [decimalValue] using hzeros

/-- The zeros that are removed count as a power of ten. -/
theorem decimalValue_rdropWhile (c : UInt8) (s : Bytes) :
    decimalValue (c :: s.rdropWhile (· = 0x30)) * 10 ^ (s.length - (s.rdropWhile (· = 0x30)).length) =
      decimalValue (c :: s) := by
  have hzeros : s.rtakeWhile (· = 0x30) =
      List.replicate (s.rtakeWhile (· = 0x30)).length 0x30 := by
    refine List.eq_replicate_of_mem fun b hb => ?_
    simpa using List.mem_rtakeWhile_imp hb
  have hsplit := List.rdropWhile_append_rtakeWhile (p := fun b : UInt8 => decide (b = 0x30)) (l := s)
  have hlen := congrArg List.length hsplit
  rw [List.length_append] at hlen
  conv_rhs => rw [← hsplit, hzeros, ← List.cons_append, decimalValue_append_zeros]
  rw [← hlen, Nat.add_sub_cancel_left]

theorem fractionValue_nil (int : Bytes) : fractionValue int [] = decimalValue int := by
  simp [fractionValue]

theorem isInt_decimal (n : ℕ) : IsInt (decimal n) := by
  by_cases hn : n = 0
  · left
    rw [hn, decimal, if_pos rfl]
  · exact Or.inr ⟨⟨decimal_ne_nil n, fun _ => isdigit_of_mem_decimal⟩, decimal_head_ne_zero hn⟩

theorem exponentValue_text (x : ℕ) : exponentValue (exponentText x) = x := by
  have hplus : exponentValue (exponentText x) =
      (decimalValue (if x < 10 then 0x30 :: decimal x else decimal x) : ℤ) := by
    simp [exponentValue, exponentText]
  rw [hplus]
  split
  · have hvalue := decimalValue_decimal x
    rw [decimalValue] at hvalue
    rw [decimalValue, List.map_cons, value_cons, hvalue]
    simp
  · rw [decimalValue_decimal]

/-- A fraction, if it is not empty, and an exponent. -/
theorem fractionValue_exponent {int frac exp : Bytes} (hfrac : ∀ c ∈ frac, isdigit c = true) :
    fractionValue int ((if frac = [] then [] else 0x2E :: frac) ++ 0x65 :: exp) =
      decimalValue (int ++ frac) * 10 ^ (exponentValue exp - frac.length) := by
  have hstop : ∀ c ∈ (0x65 :: exp).head?, isdigit c = false := by
    intro c hc
    obtain rfl : 0x65 = c := by simpa using hc
    decide
  by_cases hnil : frac = []
  · simp [fractionValue, hnil]
  · simp [fractionValue, hnil, takeWhile_append hfrac hstop, dropWhile_append hfrac hstop]

theorem numberValue_sign {n : ℤ} {int rest : Bytes} (hint : ∀ c ∈ int, isdigit c = true) (hne : int ≠ [])
    (hrest : ∀ c ∈ rest.head?, isdigit c = false) :
    numberValue ((if n < 0 then [0x2D] else []) ++ (int ++ rest)) =
      (if n < 0 then -1 else 1) * fractionValue int rest := by
  have hhead : (int ++ rest).head? ≠ some 0x2D := by
    obtain ⟨c, t, rfl⟩ := List.exists_cons_of_ne_nil hne
    have hc := hint c (by simp)
    rintro heq
    obtain rfl : c = 0x2D := by simpa using heq
    exact absurd hc (by decide)
  by_cases hn : n < 0
  · simp [numberValue, hn, takeWhile_append hint hrest, dropWhile_append hint hrest]
  · simp only [numberValue, hn, if_false, List.nil_append, hhead, takeWhile_append hint hrest,
      dropWhile_append hint hrest]

/-! ### What is printed -/

theorem isExp_exponentText (x : ℕ) : IsExp (0x65 :: exponentText x) := by
  refine ⟨0x65, [0x2B], if x < 10 then 0x30 :: decimal x else decimal x, Or.inl rfl,
    Or.inr (Or.inl rfl), ⟨?_, fun c hc => ?_⟩, rfl⟩
  · split_ifs
    · simp
    · exact decimal_ne_nil x
  · split_ifs at hc
    · rcases List.mem_cons.mp hc with rfl | hc
      · decide
      · exact isdigit_of_mem_decimal hc
    · exact isdigit_of_mem_decimal hc

/-- The text of style `e`, in the parts of the grammar. -/
theorem styleE_eq {m : ℕ} (hm : m ≠ 0) (x : ℕ) :
    ∃ c t, decimal m = c :: t ∧ c ≠ 0x30 ∧ isdigit c = true ∧
      (∀ b ∈ t.rdropWhile (· = 0x30), isdigit b = true) ∧
      styleE m x = [c] ++ ((if t.rdropWhile (· = 0x30) = [] then [] else 0x2E :: t.rdropWhile (· = 0x30)) ++
        0x65 :: exponentText x) := by
  obtain ⟨c, t, ht⟩ := List.exists_cons_of_ne_nil (decimal_ne_nil m)
  have hdigit : ∀ b ∈ c :: t, isdigit b = true := fun b hb => isdigit_of_mem_decimal (n := m) (ht ▸ hb)
  refine ⟨c, t, ht, ?_, hdigit c (by simp),
    fun b hb => hdigit b (List.mem_cons_of_mem c ((List.rdropWhile_prefix _ t).mem hb)), ?_⟩
  · rintro rfl
    exact decimal_head_ne_zero hm (by rw [ht]; rfl)
  · rw [styleE, ht, List.tail_cons, List.take_succ_cons, List.take_zero, List.append_assoc]

/-- What style `e` prints stands for the digits it is given. -/
theorem fractionValue_styleE {m : ℕ} (hlen : (decimal m).length = 6) (hm : m ≠ 0) (x : ℕ) :
    ∃ c rest, styleE m x = [c] ++ rest ∧ isdigit c = true ∧ (∀ b ∈ rest.head?, isdigit b = false) ∧
      fractionValue [c] rest = m * 10 ^ ((x : ℤ) - 5) := by
  obtain ⟨c, t, ht, -, hc, hfrac, htext⟩ := styleE_eq hm x
  have htlen : t.length = 5 := by simpa [ht] using hlen
  have hle : (t.rdropWhile (· = 0x30)).length ≤ 5 := htlen ▸ (List.rdropWhile_prefix _ t).length_le
  have hvalue := decimalValue_rdropWhile c t
  rw [htlen, ← ht, decimalValue_decimal] at hvalue
  generalize t.rdropWhile (· = 0x30) = frac at *
  refine ⟨c, _, htext, hc, fun b hb => ?_, ?_⟩
  · split_ifs at hb
    · obtain rfl : 0x65 = b := by simpa using hb
      decide
    · obtain rfl : 0x2E = b := by simpa using hb
      decide
  · rw [fractionValue_exponent hfrac, exponentValue_text, ← hvalue, Nat.cast_mul, Nat.cast_pow,
      mul_assoc, List.singleton_append]
    congr 1
    rw [show (x : ℤ) - frac.length = ((5 - frac.length : ℕ) : ℤ) + ((x : ℤ) - 5) by omega,
      zpow_add₀ (by norm_num), zpow_natCast]
    norm_num

/-- A number with an exponent `x` of its leading digit lies between two powers of ten. -/
theorem log_bounds {a : ℕ} (h : 6 ≤ Nat.log 10 a) :
    10 ^ 5 * 10 ^ (Nat.log 10 a - 5) ≤ a ∧ a < 10 ^ 6 * 10 ^ (Nat.log 10 a - 5) := by
  have hne : a ≠ 0 := by
    rintro rfl
    simp at h
  have hle := Nat.pow_log_le_self 10 hne
  have hlt := Nat.lt_pow_succ_log_self (by norm_num : 1 < 10) a
  constructor
  · rwa [← pow_add, show 5 + (Nat.log 10 a - 5) = Nat.log 10 a by omega]
  · rwa [← pow_add, show 6 + (Nat.log 10 a - 5) = Nat.log 10 a + 1 by omega]

/-- Rounding gives six digits. They stand for the number itself just when nothing is dropped. -/
theorem roundG_spec (up : Bool) {a : ℕ} (h : 6 ≤ Nat.log 10 a) :
    10 ^ 5 ≤ (roundG up a).1 ∧ (roundG up a).1 < 10 ^ 6 ∧ 5 ≤ (roundG up a).2 ∧
      ((roundG up a).1 * 10 ^ ((roundG up a).2 - 5) = a ↔ a % 10 ^ (Nat.log 10 a - 5) = 0) := by
  obtain ⟨hlow, hhigh⟩ := log_bounds h
  have hsucc : Nat.log 10 a + 1 - 5 = Nat.log 10 a - 5 + 1 := by omega
  have hten : (10 : ℕ) ^ (Nat.log 10 a - 5 + 1) = 10 ^ (Nat.log 10 a - 5) * 10 := pow_succ ..
  have hdiv := Nat.div_add_mod a (10 ^ (Nat.log 10 a - 5))
  have hmod := Nat.mod_lt a (by positivity : 0 < 10 ^ (Nat.log 10 a - 5))
  have hq : 10 ^ 5 ≤ a / 10 ^ (Nat.log 10 a - 5) := (Nat.le_div_iff_mul_le (by positivity)).mpr hlow
  have hq' : a / 10 ^ (Nat.log 10 a - 5) < 10 ^ 6 := (Nat.div_lt_iff_lt_mul (by positivity)).mpr hhigh
  simp only [roundG]
  generalize hd : 10 ^ (Nat.log 10 a - 5) = d at *
  generalize a / d = q at *
  generalize a % d = r at *
  by_cases hup : r ≠ 0 ∧ up = true
  · by_cases hcarry : q + 1 = 10 ^ 6
    · simp only [if_pos hup, if_pos hcarry, hsucc, hten]
      refine ⟨by norm_num, by norm_num, by omega, ?_⟩
      have hprod : 10 ^ 5 * (d * 10) = d * q + d := by
        rw [show q = 10 ^ 6 - 1 by omega]
        omega
      omega
    · simp only [if_pos hup, if_neg hcarry, hd]
      refine ⟨by omega, by omega, by omega, ?_⟩
      have hprod : (q + 1) * d = d * q + d := by ring
      omega
  · have hkeep : q ≠ 10 ^ 6 := by omega
    simp only [if_neg hup, if_neg hkeep, hd]
    refine ⟨hq, hq', by omega, ?_⟩
    rw [Nat.mul_comm q d]
    omega

/-- Nothing is dropped from the numbers that six digits can hold. -/
theorem mod_eq_zero_iff {a : ℕ} (h : 6 ≤ Nat.log 10 a) :
    a % 10 ^ (Nat.log 10 a - 5) = 0 ↔ ∃ m k, m < 10 ^ 6 ∧ a = m * 10 ^ k := by
  obtain ⟨hlow, hhigh⟩ := log_bounds h
  constructor
  · intro hzero
    refine ⟨a / 10 ^ (Nat.log 10 a - 5), Nat.log 10 a - 5,
      (Nat.div_lt_iff_lt_mul (by positivity)).mpr hhigh, ?_⟩
    exact (Nat.div_mul_cancel (Nat.dvd_of_mod_eq_zero hzero)).symm
  · rintro ⟨m, k, hm, hak⟩
    have hlt : 10 ^ (Nat.log 10 a) < 10 ^ (6 + k) := by
      calc 10 ^ Nat.log 10 a = 10 ^ 5 * 10 ^ (Nat.log 10 a - 5) := by
            rw [← pow_add]
            congr 1
            omega
        _ ≤ a := hlow
        _ = m * 10 ^ k := hak
        _ < 10 ^ 6 * 10 ^ k := Nat.mul_lt_mul_of_pos_right hm (by positivity)
        _ = 10 ^ (6 + k) := (pow_add 10 6 k).symm
    have hk := (Nat.pow_lt_pow_iff_right (by norm_num : 1 < 10)).mp hlt
    have hdvd : 10 ^ (Nat.log 10 a - 5) ∣ m * 10 ^ k := (pow_dvd_pow 10 (by omega)).mul_left m
    rw [← hak] at hdvd
    exact Nat.mod_eq_zero_of_dvd hdvd

theorem length_decimal {m : ℕ} (hlow : 10 ^ 5 ≤ m) (hhigh : m < 10 ^ 6) : (decimal m).length = 6 := by
  rw [decimal_of_ne_zero (by omega), List.length_map, List.length_reverse]
  refine le_antisymm ((Nat.digits_length_le_iff (by norm_num) m).mpr hhigh) ?_
  exact (Nat.lt_digits_length_iff (by norm_num) m).mpr hlow

/-- **What `%g` prints** is a number of the grammar. -/
theorem isNumber_formatG (up : ℤ → Bool) (n : ℤ) : IsNumber (formatG up n) := by
  have hminus : (if n < 0 then [0x2D] else []) = ([] : Bytes) ∨
      (if n < 0 then [0x2D] else []) = ([0x2D] : Bytes) := by
    split
    · exact Or.inr rfl
    · exact Or.inl rfl
  by_cases hlog : Nat.log 10 n.natAbs < 6
  · refine ⟨_, decimal n.natAbs, [], [], hminus, isInt_decimal _, Or.inl rfl, Or.inl rfl, ?_⟩
    rw [formatG, if_pos hlog, List.append_nil, List.append_nil]
  · obtain ⟨hlow, -⟩ := roundG_spec (up n) (not_lt.mp hlog)
    obtain ⟨c, t, -, hc, hdigit, hfrac, htext⟩ :=
      styleE_eq (by omega : (roundG (up n) n.natAbs).1 ≠ 0) (roundG (up n) n.natAbs).2
    refine ⟨_, [c], _, _, hminus, Or.inr ⟨⟨by simp, by simpa using hdigit⟩, by simpa using hc⟩, ?_,
      Or.inr (isExp_exponentText _), by rw [formatG, if_neg hlog, htext]⟩
    split_ifs with hnil
    · exact Or.inl rfl
    · exact Or.inr ⟨_, ⟨hnil, hfrac⟩, rfl⟩

/-- What the printed text stands for: the integer itself just when six digits hold it. -/
theorem numberValue_formatG (up : ℤ → Bool) (n : ℤ) :
    numberValue (formatG up n) = n ↔ ∃ m k, m < 10 ^ 6 ∧ n.natAbs = m * 10 ^ k := by
  obtain ⟨sign, hsign, hunit, habs⟩ : ∃ sign : ℚ, sign = (if n < 0 then -1 else 1) ∧ sign ≠ 0 ∧
      sign * n.natAbs = n := by
    refine ⟨_, rfl, ?_, ?_⟩ <;> split
    · norm_num
    · norm_num
    · rw [Nat.cast_natAbs, abs_of_neg ‹_›]
      push_cast
      ring
    · rw [Nat.cast_natAbs, abs_of_nonneg (not_lt.mp ‹_›), one_mul]
  by_cases hlog : Nat.log 10 n.natAbs < 6
  · have hvalue : numberValue (formatG up n) = n := by
      rw [formatG, if_pos hlog, ← List.append_nil (decimal _),
        numberValue_sign (fun _ => isdigit_of_mem_decimal) (decimal_ne_nil _) (by simp), fractionValue_nil,
        decimalValue_decimal, ← hsign, habs]
    refine iff_of_true hvalue ⟨n.natAbs, 0, ?_, by simp⟩
    exact Nat.lt_pow_of_log_lt (by norm_num) hlog
  · obtain ⟨hlow, hhigh, hx, hiff⟩ := roundG_spec (up n) (not_lt.mp hlog)
    obtain ⟨c, rest, htext, hc, hrest, hvalue⟩ :=
      fractionValue_styleE (length_decimal hlow hhigh) (by omega) (roundG (up n) n.natAbs).2
    rw [formatG, if_neg hlog, htext, numberValue_sign (by simpa using hc) (by simp) hrest, hvalue,
      ← mod_eq_zero_iff (not_lt.mp hlog), ← hiff, ← hsign, ← habs, mul_right_inj' hunit,
      show ((roundG (up n) n.natAbs).2 : ℤ) - 5 = ((roundG (up n) n.natAbs).2 - 5 : ℕ) by omega,
      zpow_natCast]
    norm_cast

/-! ### Numbers in a tree -/

variable {D : Type}

/-- **The integers that are printed as they are.** Of the integers that a double holds, the text of a JSON
number denotes the integer if and only if six significant digits are enough for it. -/
theorem stringify_number_iff (dbl : Double D) (ofInt : ℤ → D) (up : ℤ → Bool)
    (hprint : ∀ n : ℤ, |n| ≤ 2 ^ 53 → dbl.formatG (ofInt n) = formatG up n) {n : ℤ} (hn : |n| ≤ 2 ^ 53) :
    Denotes (implStringify dbl (.jNumber (ofInt n))) n ↔ ∃ m k, m < 10 ^ 6 ∧ n.natAbs = m * 10 ^ k := by
  have htext : implStringify dbl (.jNumber (ofInt n)) = formatG up n := hprint n hn
  rw [htext, Denotes, numberValue_formatG]
  exact and_iff_right (isNumber_formatG up n)

/-- Rounding to the nearest. -/
def nearest (n : ℤ) : Bool :=
  10 ^ (Nat.log 10 n.natAbs - 5) < 2 * (n.natAbs % 10 ^ (Nat.log 10 n.natAbs - 5))

/-- Doubles that hold integers. -/
def intDouble : Double ℤ where
  strtod token := ((numberValue token).num, false)
  isZero n := n = 0
  isinf _ := false
  isnan _ := false
  formatG := formatG nearest

/-- An upload limit of ten megabytes. -/
theorem stringify_number_sample :
    Denotes (implStringify intDouble (.jNumber 10000000)) (10000000 : ℤ) ↔
      ∃ m k, m < 10 ^ 6 ∧ (10000000 : ℤ).natAbs = m * 10 ^ k :=
  stringify_number_iff intDouble id nearest (fun _ _ => rfl) (by norm_num)

/-- An upload limit of ten mebibytes is printed as `1.04858e+07`. -/
theorem stringify_mebibytes : ¬Denotes (implStringify intDouble (.jNumber 10485760)) (10485760 : ℤ) := by
  have htext : implStringify intDouble (.jNumber 10485760) = formatG nearest 10485760 := rfl
  have hlog : Nat.log 10 10485760 = 7 := by norm_num
  rintro ⟨-, hvalue⟩
  rw [htext, numberValue_formatG] at hvalue
  have hzero := (@mod_eq_zero_iff 10485760 (by omega)).mpr hvalue
  rw [hlog] at hzero
  exact absurd hzero (by norm_num)

end Json
