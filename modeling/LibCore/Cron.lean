import LibCore.SnmpNumbers

/-!
# Cron Expressions

`cron_scheduler.c`: an expression of six fields becomes six bitmaps, and a job matches a time when the
bits of its second, minute, hour, day, month and weekday are set. Parsing is lenient: it looks at six
fields, `atoi` reads whatever a token starts with, and what lies outside a field's range is dropped.

A field denotes a set of numbers. The abstract side says what an expression denotes and when it is well
formed; a range may have a step there, which the parser does not know. The buffers hold 255 bytes of an
expression and 127 of a list, so that the parser may read less than was written: what is left of a field
(`Field.keep`) is read number by number (`Field.reads`).

## Main definitions

* `parseField`, `parseCronExpr`, `cronMatches`, `addCron`: the parser, the match and the registration.
* `Field`, `Expr`: expressions and what they denote.
* `Expr.Keeps`: what is left of the fields denotes the same legal numbers.

## Main results

* `cronMatches_iff`: a job matches exactly the times its expression denotes.
* `getLsbD_parseField`: the bits of a field that may be cut.
* `addCron_wellFormed_iff`: when what is accepted is well formed and fires as it is written.
-/

open CString Radix

namespace Cron

/-! ### Parsing -/

/-- `atoi`: what `strtol` reads, cut to an `int`. -/
def atoi (s : Bytes) : ℤ := (BitVec.ofInt 32 (Snmp.atoll s)).toInt

/-- The tokens `strtok_r` finds between separators. -/
def strtok (delim : UInt8 → Bool) (s : Bytes) : List Bytes := (s.splitOnP delim).filter (· ≠ [])

/-- The loop `for (int i = from; i < stop; i += step) bitmap |= (1ULL << i)`. A step is positive. -/
def setBits (bitmap : BitVec 64) (i stop step : ℕ) : BitVec 64 :=
  if i < stop ∧ 0 < step then setBits (bitmap ||| (1#64 <<< i)) (i + step) stop step else bitmap
termination_by stop - i

/-- A token of a list: a number or a range. -/
def parseToken (minVal maxVal : ℕ) (bitmap : BitVec 64) (token : Bytes) : BitVec 64 :=
  match token.dropWhile (· ≠ 0x2D) with
  | _ :: upper =>
      let lo := max (atoi token) minVal
      let hi := min (atoi upper) maxVal
      setBits bitmap lo.toNat (hi + 1).toNat 1
  | [] =>
      let val := atoi token
      if (minVal : ℤ) ≤ val ∧ val ≤ maxVal then bitmap ||| (1#64 <<< val.toNat) else bitmap

/-- `parse_field`. -/
def parseField (field : Bytes) (minVal maxVal : ℕ) : BitVec 64 :=
  if field = [0x2A] then setBits 0 minVal (maxVal + 1) 1
  else if field.take 2 = [0x2A, 0x2F] then
    let step := atoi (field.drop 2)
    setBits 0 minVal (maxVal + 1) (if step ≤ 0 then 1 else step.toNat)
  else (strtok (· == 0x2C) (field.take 127)).foldl (parseToken minVal maxVal) 0

/-- The bitmaps of a `CronJob`. -/
structure CronJob where
  seconds : BitVec 64
  minutes : BitVec 64
  hours : BitVec 32
  days : BitVec 32
  months : BitVec 16
  weekdays : BitVec 8

/-- A blank or a tab. -/
def isBlank (c : UInt8) : Bool := c = 0x20 || c = 0x09

/-- `parse_cron_expr`: the loop stops behind the sixth field. -/
def parseCronExpr (expr : Bytes) : Option CronJob :=
  match (strtok isBlank (expr.take 255)).take 6 with
  | [f₀, f₁, f₂, f₃, f₄, f₅] => some
      { seconds := parseField f₀ 0 59
        minutes := parseField f₁ 0 59
        hours := (parseField f₂ 0 23).setWidth 32
        days := (parseField f₃ 1 31).setWidth 32
        months := (parseField f₄ 1 12).setWidth 16
        weekdays := (parseField f₅ 0 6).setWidth 8 }
  | _ => none

/-- `struct tm`, within the ranges that `localtime_r` keeps. -/
structure Tm where
  tmSec : ℕ
  tmMin : ℕ
  tmHour : ℕ
  tmMday : ℕ
  tmMon : ℕ
  tmWday : ℕ
  sec_le : tmSec ≤ 60
  min_le : tmMin ≤ 59
  hour_le : tmHour ≤ 23
  mday_le : 1 ≤ tmMday ∧ tmMday ≤ 31
  mon_le : tmMon ≤ 11
  wday_le : tmWday ≤ 6

/-- `bitmap & (1ULL << i)`, where the bitmap is extended to 64 bits. -/
def hasBit {w : ℕ} (bitmap : BitVec w) (i : ℕ) : Bool := bitmap.setWidth 64 &&& (1#64 <<< i) ≠ 0

/-- `cron_matches`. -/
def cronMatches (job : CronJob) (t : Tm) : Bool :=
  hasBit job.seconds t.tmSec && hasBit job.minutes t.tmMin && hasBit job.hours t.tmHour &&
    hasBit job.days t.tmMday && hasBit job.months (t.tmMon + 1) && hasBit job.weekdays t.tmWday

/-- A registered job. -/
structure Entry where
  name : Bytes
  job : CronJob

/-- The jobs of a `CronScheduler`. -/
structure CronScheduler where
  jobs : List Entry
  jobCapacity : ℕ

/-- `CronScheduler_addCron`; `grown` says whether `realloc` succeeds. -/
def addCron (self : CronScheduler) (grown : Bool) (name expr : Bytes) : Bool × CronScheduler :=
  let full := self.jobs.length ≥ self.jobCapacity
  if full ∧ !grown then (false, self)
  else
    let self := if full then { self with jobCapacity := self.jobCapacity * 2 } else self
    match parseCronExpr expr with
    | none => (false, self)
    | some job => (true, { self with jobs := self.jobs ++ [⟨name.take 63, job⟩] })

/-! ### What expressions denote -/

/-- An item of a list, with its numbers as they are written. -/
inductive Item
  | number (n : Bytes)
  | range (a b : Bytes)
  | stepped (a b s : Bytes)

/-- A field. -/
inductive Field
  | any
  | every (n : Bytes)
  | list (items : List Item)

/-- A number is written with digits. -/
def IsNumeral (n : Bytes) : Prop := n ≠ [] ∧ ∀ c ∈ n, isdigit c = true

instance (n : Bytes) : Decidable (IsNumeral n) := inferInstanceAs (Decidable (_ ∧ _))

/-- The text of an item. -/
def Item.text : Item → Bytes
  | .number n => n
  | .range a b => a ++ 0x2D :: b
  | .stepped a b s => a ++ 0x2D :: (b ++ 0x2F :: s)

/-- The text of a field. -/
def Field.text : Field → Bytes
  | .any => [0x2A]
  | .every n => 0x2A :: 0x2F :: n
  | .list items => [0x2C].intercalate (items.map Item.text)

/-- The numerals of an item. -/
def Item.numerals : Item → List Bytes
  | .number n => [n]
  | .range a b => [a, b]
  | .stepped a b s => [a, b, s]

/-- The numerals of a field. -/
def Field.numerals : Field → List Bytes
  | .any => []
  | .every n => [n]
  | .list items => items.flatMap Item.numerals

/-- The numbers an item denotes. -/
def Item.denotes : Item → Set ℕ
  | .number n => {decimalValue n}
  | .range a b => Set.Icc (decimalValue a) (decimalValue b)
  | .stepped a b s => {v | v ≤ decimalValue b ∧ ∃ k, v = decimalValue a + k * decimalValue s}

/-- The numbers a field denotes, counting from the least one of its range. -/
def Field.denotes (least : ℕ) : Field → Set ℕ
  | .any => Set.univ
  | .every n => {v | ∃ k, v = least + k * decimalValue n}
  | .list items => {v | ∃ item ∈ items, v ∈ item.denotes}

/-- A well-formed item. -/
def Item.WellFormed : Item → Prop
  | .number n => IsNumeral n
  | .range a b => IsNumeral a ∧ IsNumeral b
  | .stepped a b s => IsNumeral a ∧ IsNumeral b ∧ IsNumeral s ∧ 0 < decimalValue s

/-- A well-formed field. -/
def Field.WellFormed : Field → Prop
  | .any => True
  | .every n => IsNumeral n ∧ 0 < decimalValue n
  | .list items => items ≠ [] ∧ ∀ item ∈ items, item.WellFormed

/-- An item without its step. -/
def Item.unstep : Item → Item
  | .stepped a b _ => .range a b
  | item => item

/-- A field without the steps of its ranges. -/
def Field.unstep : Field → Field
  | .list items => .list (items.map Item.unstep)
  | f => f

/-- The six fields of an expression. -/
structure Expr where
  second : Field
  minute : Field
  hour : Field
  day : Field
  month : Field
  weekday : Field

/-- The fields, each with its legal range. -/
def Expr.fields (E : Expr) : List (Field × ℕ × ℕ) :=
  [(E.second, 0, 59), (E.minute, 0, 59), (E.hour, 0, 23), (E.day, 1, 31), (E.month, 1, 12), (E.weekday, 0, 6)]

/-- The expression is written as `expr`: its fields are the texts between blanks. -/
def Expr.Writes (E : Expr) (expr : Bytes) : Prop := strtok isBlank expr = E.fields.map (·.1.text)

/-- The values of a field that are legal. -/
def Field.legal (f : Field) (least most : ℕ) : Set ℕ := f.denotes least ∩ Set.Icc least most

/-- Every part of the time lies in the set of its field. -/
def Expr.Matches (E : Expr) (t : Tm) : Prop :=
  t.tmSec ∈ E.second.legal 0 59 ∧ t.tmMin ∈ E.minute.legal 0 59 ∧ t.tmHour ∈ E.hour.legal 0 23 ∧
    t.tmMday ∈ E.day.legal 1 31 ∧ t.tmMon + 1 ∈ E.month.legal 1 12 ∧ t.tmWday ∈ E.weekday.legal 0 6

/-- A field that fits the buffers of the parser. -/
structure Field.Fits (f : Field) : Prop where
  length_lt : f.text.length < 128
  numerals_lt : ∀ n ∈ f.numerals, decimalValue n < 10 ^ 6

/-! ### Bits -/

theorem hasBit_eq {w : ℕ} (bitmap : BitVec w) {i : ℕ} (hi : i < 64) : hasBit bitmap i = bitmap.getLsbD i := by
  rw [hasBit, Bool.eq_iff_iff, decide_eq_true_iff]
  constructor
  · intro hne
    obtain ⟨j, hj⟩ : ∃ j, (bitmap.setWidth 64 &&& (1#64 <<< i)).getLsbD j = true := by
      by_contra hnone
      push Not at hnone
      exact hne (BitVec.eq_of_getLsbD_eq fun j _ => by simpa using hnone j)
    rw [BitVec.getLsbD_and, Bool.and_eq_true, ← BitVec.twoPow_eq, BitVec.getLsbD_twoPow, Bool.and_eq_true,
      decide_eq_true_eq, decide_eq_true_eq, BitVec.getLsbD_setWidth, Bool.and_eq_true] at hj
    rw [hj.2.2]
    exact hj.1.2
  · intro hbit hzero
    have hcleared := congrArg (BitVec.getLsbD · i) hzero
    simp [← BitVec.twoPow_eq, hbit, hi] at hcleared

theorem getLsbD_or_shift (bitmap : BitVec 64) {i v : ℕ} (hi : i < 64) :
    (bitmap ||| (1#64 <<< i)).getLsbD v = true ↔ bitmap.getLsbD v = true ∨ v = i := by
  rw [← BitVec.twoPow_eq, BitVec.getLsbD_or, BitVec.getLsbD_twoPow, Bool.or_eq_true, Bool.and_eq_true,
    decide_eq_true_eq, decide_eq_true_eq]
  grind

/-- The loop sets the bits of an arithmetic progression. -/
theorem getLsbD_setBits {stop step : ℕ} (hstep : 0 < step) (hstop : stop ≤ 64) (bitmap : BitVec 64) (i v : ℕ) :
    (setBits bitmap i stop step).getLsbD v = true ↔
      bitmap.getLsbD v = true ∨ (v < stop ∧ ∃ k, v = i + k * step) := by
  fun_induction setBits bitmap i stop step with
  | case1 bitmap i hlt ih =>
      rw [ih, getLsbD_or_shift bitmap (by omega), or_assoc]
      refine or_congr_right ?_
      constructor
      · rintro (rfl | ⟨hv, k, rfl⟩)
        · exact ⟨hlt.1, 0, by omega⟩
        · exact ⟨hv, k + 1, by rw [Nat.add_mul]; omega⟩
      · rintro ⟨hv, k, rfl⟩
        cases k with
        | zero => exact .inl (by omega)
        | succ k => exact .inr ⟨hv, k, by rw [Nat.add_mul]; omega⟩
  | case2 bitmap i hge =>
      refine ⟨.inl, fun h => h.resolve_right ?_⟩
      rintro ⟨hv, k, rfl⟩
      exact hge ⟨by omega, hstep⟩

theorem getLsbD_setBits_one {stop : ℕ} (hstop : stop ≤ 64) (bitmap : BitVec 64) (i v : ℕ) :
    (setBits bitmap i stop 1).getLsbD v = true ↔ bitmap.getLsbD v = true ∨ (i ≤ v ∧ v < stop) := by
  rw [getLsbD_setBits Nat.one_pos hstop]
  refine or_congr_right ⟨?_, ?_⟩
  · rintro ⟨hv, k, rfl⟩
    exact ⟨by omega, hv⟩
  · rintro ⟨hi, hv⟩
    exact ⟨hv, v - i, by omega⟩

/-! ### Numerals -/

/-- What `atoll` makes of a numeral in front of something else. -/
theorem atoll_numeral {n : Bytes} (hn : IsNumeral n) {rest : Bytes}
    (hrest : ∀ c ∈ rest.head?, isdigit c = false) :
    Snmp.atoll (n ++ rest) = min (2 ^ 63 - 1) (decimalValue n : ℤ) := by
  have htake : (n ++ rest).takeWhile isdigit = n := takeWhile_append hn.2 hrest
  obtain ⟨c, digits, hc⟩ := List.exists_cons_of_ne_nil hn.1
  have hdigit : isdigit c = true := hn.2 c (by simp [hc])
  obtain ⟨hspace, hplus, hminus⟩ := isdigit_head hdigit
  have hstart : (n ++ rest).dropWhile isspace = n ++ rest := by
    rw [hc, List.cons_append, List.dropWhile_cons_of_neg (by simp [hspace])]
  have hhead : (n ++ rest).head? = some c := by
    rw [hc]
    rfl
  simp only [Snmp.atoll, hstart, hhead, Option.any_some, hplus, hminus, decide_false, Bool.or_self,
    Bool.false_eq_true, if_false, htake, Option.some.injEq]
  omega

/-- `atoi` stops behind a numeral. -/
theorem atoi_append {n : Bytes} (hn : IsNumeral n) {rest : Bytes}
    (hrest : ∀ c ∈ rest.head?, isdigit c = false) : atoi (n ++ rest) = atoi n := by
  have hwhole := @atoll_numeral n hn [] (by simp)
  rw [List.append_nil] at hwhole
  rw [atoi, atoi, atoll_numeral hn hrest, hwhole]

/-- A number that an `int` holds is read. -/
theorem atoi_numeral {n : Bytes} (hn : IsNumeral n) (hlt : decimalValue n < 2 ^ 31) :
    atoi n = decimalValue n := by
  have hwhole := @atoll_numeral n hn [] (by simp)
  rw [List.append_nil] at hwhole
  rw [atoi, hwhole, BitVec.toInt_ofInt, min_eq_right (by omega)]
  exact Int.bmod_eq_of_le (by omega) (by omega)

theorem IsNumeral.notMem {n : Bytes} (hn : IsNumeral n) {c : UInt8} (hc : isdigit c = false) : c ∉ n := by
  intro hmem
  rw [hn.2 c hmem] at hc
  cases hc

/-! ### Items -/

theorem dropWhile_dash {n rest : Bytes} (hn : IsNumeral n) :
    (n ++ 0x2D :: rest).dropWhile (· ≠ 0x2D) = 0x2D :: rest := by
  rw [List.dropWhile_append_of_pos fun c hc => ?_, List.dropWhile_cons_of_neg (by simp)]
  have hne : c ≠ 0x2D := by
    rintro rfl
    exact hn.notMem (by decide) hc
  simpa using hne

/-- A token of digits is a number. -/
theorem getLsbD_parseToken_number {minVal maxVal : ℕ} (hmax : maxVal < 64) {n : Bytes}
    (hn : ∀ c ∈ n, isdigit c = true) (bitmap : BitVec 64) (v : ℕ) :
    (parseToken minVal maxVal bitmap n).getLsbD v = true ↔
      bitmap.getLsbD v = true ∨ atoi n = v ∧ v ∈ Set.Icc minVal maxVal := by
  have hnone : n.dropWhile (· ≠ 0x2D) = [] := by
    rw [List.dropWhile_eq_nil_iff]
    intro c hc
    have hne : c ≠ 0x2D := by
      rintro rfl
      exact absurd (hn _ hc) (by decide)
    simpa using hne
  rw [parseToken, hnone]
  simp only [Set.mem_Icc]
  split_ifs with hlegal
  · rw [getLsbD_or_shift bitmap (by omega)]
    refine or_congr_right ?_
    omega
  · refine ⟨.inl, fun h => h.resolve_right ?_⟩
    rintro ⟨hval, hlegal'⟩
    omega

/-- A token with a dash is a range, up to the number behind the dash. -/
theorem getLsbD_parseToken_range {minVal maxVal : ℕ} (hmax : maxVal < 64) {a upper : Bytes} (ha : IsNumeral a)
    (bitmap : BitVec 64) (v : ℕ) :
    (parseToken minVal maxVal bitmap (a ++ 0x2D :: upper)).getLsbD v = true ↔
      bitmap.getLsbD v = true ∨ (atoi a ≤ v ∧ v ≤ atoi upper) ∧ v ∈ Set.Icc minVal maxVal := by
  have hlo : atoi (a ++ 0x2D :: upper) = atoi a :=
    atoi_append ha fun c hc => by obtain rfl := Option.some.inj hc; decide
  rw [parseToken, dropWhile_dash ha]
  simp only [hlo, Set.mem_Icc]
  rw [getLsbD_setBits_one (by omega)]
  refine or_congr_right ?_
  omega

/-- What the first `m` bytes of an item are read as. The step of a range is not looked at. -/
def Item.keep (m : ℕ) : Item → Item
  | .number n => .number (n.take m)
  | .range a b | .stepped a b _ =>
      if m ≤ a.length then .number (a.take m) else .range a (b.take (m - (a.length + 1)))

/-- The numbers of an item, as `atoi` reads them. -/
def Item.reads : Item → Set ℕ
  | .number n => {v | atoi n = v}
  | .range a b | .stepped a b _ => {v | atoi a ≤ v ∧ v ≤ atoi b}

/-- A token sets the legal bits of what is kept of its item. -/
theorem getLsbD_parseToken {minVal maxVal : ℕ} (hmax : maxVal < 64) {item : Item} (hitem : item.WellFormed)
    (m : ℕ) (bitmap : BitVec 64) (v : ℕ) :
    (parseToken minVal maxVal bitmap (item.text.take m)).getLsbD v = true ↔
      bitmap.getLsbD v = true ∨ v ∈ (item.keep m).reads ∩ Set.Icc minVal maxVal := by
  have hnumber : ∀ {n : Bytes}, IsNumeral n → ∀ c ∈ n.take m, isdigit c = true :=
    fun hn c hc => hn.2 c (List.mem_of_mem_take hc)
  -- the head of a range is cut, or all of it is there with a part of what follows
  have hrange : ∀ {a b rest : Bytes}, IsNumeral a →
      (a.length < m → atoi (rest.take (m - (a.length + 1))) = atoi (b.take (m - (a.length + 1)))) →
      ((parseToken minVal maxVal bitmap ((a ++ 0x2D :: rest).take m)).getLsbD v = true ↔
        bitmap.getLsbD v = true ∨ v ∈ ((Item.range a b).keep m).reads ∩ Set.Icc minVal maxVal) := by
    intro a b rest ha hrest
    rw [Item.keep]
    split_ifs with hm
    · rw [List.take_append_of_le_length hm]
      exact getLsbD_parseToken_number hmax (hnumber ha) bitmap v
    · have htake : (a ++ 0x2D :: rest).take m = a ++ 0x2D :: rest.take (m - (a.length + 1)) := by
        rw [List.take_append, List.take_of_length_le (by omega),
          show m - a.length = m - (a.length + 1) + 1 by omega, List.take_succ_cons]
      rw [htake, getLsbD_parseToken_range hmax ha, hrest (by omega)]
      rfl
  cases item with
  | number n => exact getLsbD_parseToken_number hmax (hnumber hitem) bitmap v
  | range a b => exact hrange hitem.1 fun _ => rfl
  | stepped a b s =>
      refine hrange hitem.1 fun _ => ?_
      rcases Nat.le_total (m - (a.length + 1)) b.length with hle | hge
      · rw [List.take_append_of_le_length hle]
      · rw [List.take_append, List.take_of_length_le hge]
        refine atoi_append hitem.2.1 fun c hc => ?_
        rcases Nat.eq_zero_or_pos (m - (a.length + 1) - b.length) with hz | hpos
        · simp [hz] at hc
        · obtain ⟨k, hk⟩ : ∃ k, m - (a.length + 1) - b.length = k + 1 := ⟨_, (Nat.sub_add_cancel hpos).symm⟩
          rw [hk, List.take_succ_cons] at hc
          obtain rfl := Option.some.inj hc
          decide

/-! ### Fields -/

/-- The text of an item starts with a digit, and has no comma. -/
theorem Item.WellFormed.text {item : Item} (h : item.WellFormed) :
    (∃ c s, item.text = c :: s ∧ isdigit c = true) ∧ 0x2C ∉ item.text := by
  have hfirst : ∀ {n : Bytes}, IsNumeral n → ∀ rest, ∃ c s, n ++ rest = c :: s ∧ isdigit c = true := by
    intro n hn rest
    obtain ⟨c, digits, rfl⟩ := List.exists_cons_of_ne_nil hn.1
    exact ⟨c, digits ++ rest, rfl, hn.2 c List.mem_cons_self⟩
  have hcomma : ∀ {n : Bytes}, IsNumeral n → 0x2C ∉ n := fun hn => hn.notMem (by decide)
  cases item with
  | number n =>
      have hn : IsNumeral n := h
      have hhead := hfirst hn []
      rw [List.append_nil] at hhead
      exact ⟨hhead, hcomma hn⟩
  | range a b => exact ⟨hfirst h.1 _, by simp [Item.text, hcomma h.1, hcomma h.2]⟩
  | stepped a b s =>
      exact ⟨hfirst h.1 _, by simp [Item.text, hcomma h.1, hcomma h.2.1, hcomma h.2.2.1]⟩

/-! ### Tokens -/

section Tokens

variable {delim : UInt8 → Bool} {w s t : Bytes} {d : UInt8}

/-- A word is a token. -/
theorem strtok_word (hw : ∀ c ∈ w, delim c = false) : strtok delim w = if w = [] then [] else [w] := by
  rw [strtok, List.splitOnP_eq_singleton hw]
  split_ifs with hnil <;> simp [hnil]

/-- The tokens in front of a separator and behind it. -/
theorem strtok_append_cons (hd : delim d = true) : strtok delim (s ++ d :: t) = strtok delim s ++ strtok delim t := by
  rw [strtok, List.splitOnP_append_cons _ _ hd, List.filter_append]
  rfl

theorem ne_nil_of_mem_strtok (h : w ∈ strtok delim s) : w ≠ [] := by
  simpa using (List.mem_filter.mp h).2

end Tokens

/-! ### Fields -/

/-- What the first `m` bytes of a list are read as. -/
def keepItems : ℕ → List Item → List Item
  | _, [] => []
  | m, item :: items => if m = 0 then [] else item.keep m :: keepItems (m - (item.text.length + 1)) items

/-- What the first `m` bytes of a field are read as. A list is cut to 127 bytes. -/
def Field.keep (m : ℕ) : Field → Field
  | .any => .any
  | .every n => if m ≤ 2 then .any else .every (n.take (m - 2))
  | .list items => .list (keepItems (min 127 m) items)

/-- The legal numbers of a field, as `atoi` reads them. -/
def Field.reads (least most : ℕ) : Field → Set ℕ
  | .any => Set.Icc least most
  | .every n => {v | v ≤ most ∧ ∃ k, v = least + k * if atoi n ≤ 0 then 1 else (atoi n).toNat}
  | .list items => {v | ∃ item ∈ items, v ∈ item.reads} ∩ Set.Icc least most

/-- The first item of a list that is cut, and the others. -/
theorem strtok_list_cons {item : Item} {items : List Item} (hitem : item.WellFormed) {m : ℕ} (hm : m ≠ 0) :
    strtok (· == 0x2C) ((Field.list (item :: items)).text.take m) =
      item.text.take m :: strtok (· == 0x2C) ((Field.list items).text.take (m - (item.text.length + 1))) := by
  obtain ⟨⟨c, s, htext, -⟩, hcomma⟩ := hitem.text
  have hword : ∀ k, ∀ c ∈ item.text.take k, (c == 0x2C) = false := by
    intro k c hc
    have hne : c ≠ 0x2C := by
      rintro rfl
      exact hcomma (List.mem_of_mem_take hc)
    simpa using hne
  have hne : item.text.take m ≠ [] := by simp [htext, hm]
  cases items with
  | nil =>
      have hnil : (Field.list []).text = [] := rfl
      have hone : (Field.list [item]).text = item.text := by simp [Field.text]
      rw [hnil, List.take_nil, hone, strtok_word (hword m), if_neg hne]
      rfl
  | cons item' items =>
      have hcons : (Field.list (item :: item' :: items)).text =
          item.text ++ 0x2C :: (Field.list (item' :: items)).text := by
        rw [Field.text, List.map_cons, List.map_cons, List.intercalate_cons_cons]
        simp [Field.text]
      rw [hcons]
      rcases Nat.lt_or_ge item.text.length m with hlt | hge
      · rw [List.take_append, List.take_of_length_le hlt.le,
          show m - item.text.length = m - (item.text.length + 1) + 1 by omega, List.take_succ_cons,
          strtok_append_cons (by rfl)]
        have hwhole := hword item.text.length
        rw [List.take_length] at hwhole
        rw [strtok_word hwhole, if_neg (by simp [htext])]
        rfl
      · rw [List.take_append_of_le_length hge, Nat.sub_eq_zero_of_le (by omega), List.take_zero,
          strtok_word (hword m), if_neg hne]
        rfl

theorem getLsbD_foldl_parseToken {minVal maxVal : ℕ} (hmax : maxVal < 64) {items : List Item}
    (hitems : ∀ item ∈ items, item.WellFormed) (m : ℕ) (bitmap : BitVec 64) (v : ℕ) :
    ((strtok (· == 0x2C) ((Field.list items).text.take m)).foldl (parseToken minVal maxVal) bitmap).getLsbD v =
        true ↔
      bitmap.getLsbD v = true ∨ ∃ item ∈ keepItems m items, v ∈ item.reads ∩ Set.Icc minVal maxVal := by
  induction items generalizing m bitmap with
  | nil =>
      have hnil : strtok (· == 0x2C) ((Field.list []).text.take m) = [] := by
        rw [show (Field.list []).text = [] from rfl, List.take_nil]
        rfl
      simp [hnil, keepItems]
  | cons item items ih =>
      obtain ⟨hitem, hitems⟩ := List.forall_mem_cons.mp hitems
      rw [keepItems]
      by_cases hm : m = 0
      · have hnil : strtok (· == 0x2C) ((Field.list (item :: items)).text.take m) = [] := by
          rw [hm, List.take_zero]
          rfl
        rw [hnil, if_pos hm]
        simp
      · rw [if_neg hm, strtok_list_cons hitem hm, List.foldl_cons, ih hitems, getLsbD_parseToken hmax hitem, or_assoc,
          List.exists_mem_cons_iff]

/-- The bits of a field that is cut are the **legal numbers** that what is left of it is read as. -/
theorem getLsbD_parseField {minVal maxVal : ℕ} (hmax : maxVal < 64) {f : Field} (hf : f.WellFormed) {t : Bytes}
    (ht : t ≠ []) (hpre : t <+: f.text) (v : ℕ) :
    (parseField t minVal maxVal).getLsbD v = true ↔ v ∈ (f.keep t.length).reads minVal maxVal := by
  have hzero : (0 : BitVec 64).getLsbD v = false := BitVec.getLsbD_zero
  have hpos : t.length ≠ 0 := fun h => ht (List.length_eq_zero_iff.mp h)
  have hcut : t = f.text.take t.length := List.prefix_iff_eq_take.mp hpre
  generalize t.length = m at hpos hcut ⊢
  subst hcut
  cases f with
  | any =>
      obtain ⟨m, rfl⟩ := Nat.exists_eq_succ_of_ne_zero hpos
      rw [Field.text, List.take_succ_cons, List.take_nil, parseField, if_pos rfl, getLsbD_setBits_one (by omega)]
      simp only [hzero, Bool.false_eq_true, false_or, Field.keep, Field.reads, Set.mem_Icc]
      omega
  | every n =>
      rw [Field.keep]
      split_ifs with hm
      · -- the star, or the star and the slash
        have hall : ∀ t, t = [0x2A] ∨ t = [0x2A, 0x2F] →
            ((parseField t minVal maxVal).getLsbD v = true ↔ v ∈ Field.any.reads minVal maxVal) := by
          intro t ht
          have hbits : parseField t minVal maxVal = setBits 0 minVal (maxVal + 1) 1 := by
            rcases ht with rfl | rfl <;> rfl
          rw [hbits, getLsbD_setBits_one (by omega)]
          simp only [hzero, Bool.false_eq_true, false_or, Field.reads, Set.mem_Icc]
          omega
        obtain rfl | rfl : m = 1 ∨ m = 2 := by omega
        · exact hall _ (.inl rfl)
        · exact hall _ (.inr rfl)
      · obtain ⟨k, rfl⟩ : ∃ k, m = k + 3 := ⟨m - 3, by omega⟩
        have htake : (Field.every n).text.take (k + 3) = 0x2A :: 0x2F :: n.take (k + 1) := rfl
        rw [htake, parseField, if_neg (by simp), if_pos (by simp)]
        simp only [List.drop_succ_cons, List.drop_zero]
        rw [getLsbD_setBits (by split_ifs <;> omega) (by omega)]
        simp only [hzero, Bool.false_eq_true, false_or, Field.reads, Set.mem_ofPred_eq, Nat.lt_succ_iff,
          show k + 3 - 2 = k + 1 from rfl]
  | list items =>
      obtain ⟨hne, hitems⟩ := hf
      obtain ⟨item, items', hcons⟩ := List.exists_cons_of_ne_nil hne
      have hhead : ∃ c s, (Field.list items).text = c :: s ∧ isdigit c = true := by
        obtain ⟨⟨c, s, htext, hc⟩, -⟩ := (hitems item (by simp [hcons])).text
        rw [Field.text, hcons, List.map_cons, htext]
        cases items' with
        | nil => exact ⟨c, s, by simp, hc⟩
        | cons item' items' => exact ⟨c, _, by rw [List.map_cons, List.intercalate_cons_cons]; rfl, hc⟩
      obtain ⟨c, s, htext, hc⟩ := hhead
      have hstar : c ≠ 0x2A := by
        rintro rfl
        revert hc
        decide
      obtain ⟨m, rfl⟩ := Nat.exists_eq_succ_of_ne_zero hpos
      have htake : (Field.list items).text.take (m + 1) = c :: s.take m := by rw [htext, List.take_succ_cons]
      rw [parseField, if_neg (by simp [htake, hstar]), if_neg (by simp [htake, hstar]), List.take_take,
        getLsbD_foldl_parseToken hmax hitems]
      simp only [hzero, Bool.false_eq_true, false_or, Field.keep, Field.reads, Set.mem_inter_iff,
        Set.mem_ofPred_eq]
      grind

/-- An item that is not cut. -/
theorem Item.keep_of_le {item : Item} {m : ℕ} (h : item.text.length ≤ m) : item.keep m = item.unstep := by
  cases item with
  | number n => exact congrArg Item.number (List.take_of_length_le h)
  | range a b | stepped a b s =>
      simp only [text, List.length_append, List.length_cons] at h
      rw [keep, if_neg (by omega), List.take_of_length_le (by omega)]
      rfl

/-- A list that is not cut. -/
theorem keepItems_of_le {items : List Item} (hitems : ∀ item ∈ items, item.WellFormed) {m : ℕ}
    (h : (Field.list items).text.length ≤ m) : keepItems m items = items.map Item.unstep := by
  induction items generalizing m with
  | nil => rfl
  | cons item items ih =>
      obtain ⟨hitem, hitems⟩ := List.forall_mem_cons.mp hitems
      obtain ⟨⟨c, s, htext, -⟩, -⟩ := hitem.text
      have hpos : 0 < item.text.length := by simp [htext]
      have hlen : item.text.length ≤ m ∧ (Field.list items).text.length ≤ m - (item.text.length + 1) := by
        cases items with
        | nil => simpa [Field.text] using h
        | cons item' items =>
            rw [Field.text, List.map_cons, List.map_cons, List.intercalate_cons_cons] at h
            simp only [List.length_append, List.length_cons, List.length_nil] at h
            simp only [Field.text, List.map_cons]
            omega
      rw [keepItems, if_neg (by omega), Item.keep_of_le hlen.1, ih hitems hlen.2, List.map_cons]

/-- Numbers that an `int` holds are read as they are. -/
theorem Item.reads_unstep {item : Item} (h : ∀ n ∈ item.numerals, atoi n = decimalValue n) :
    item.unstep.reads = item.unstep.denotes := by
  cases item with
  | number n =>
      ext v
      simp only [unstep, reads, denotes, h n (by simp [numerals]), Set.mem_ofPred_eq, Set.mem_singleton_iff,
        Nat.cast_inj, eq_comm]
  | range a b | stepped a b s =>
      ext v
      simp only [unstep, reads, denotes, h a (by simp [numerals]), h b (by simp [numerals]), Set.mem_ofPred_eq,
        Set.mem_Icc, Nat.cast_le]

/-- A well-formed field has numerals. -/
theorem Field.WellFormed.isNumeral {f : Field} (h : f.WellFormed) : ∀ n ∈ f.numerals, IsNumeral n := by
  cases f with
  | any => simp [Field.numerals]
  | every n => simpa [Field.numerals] using h.1
  | list items =>
      simp only [Field.numerals, List.forall_mem_flatMap]
      intro item hitem
      have hwf := h.2 item hitem
      cases item with
      | number n =>
          have hn : IsNumeral n := hwf
          simpa [Item.numerals] using hn
      | range a b =>
          have hab : IsNumeral a ∧ IsNumeral b := hwf
          simpa [Item.numerals] using hab
      | stepped a b s => simpa [Item.numerals] using ⟨hwf.1, hwf.2.1, hwf.2.2.1⟩

/-- A field that fits the buffers is read as it is, without the steps of its ranges. -/
theorem Field.reads_keep {least most : ℕ} {f : Field} (hf : f.WellFormed) (hfits : f.Fits) :
    (f.keep f.text.length).reads least most = f.unstep.legal least most := by
  have hread : ∀ n ∈ f.numerals, atoi n = decimalValue n := fun n hn =>
    atoi_numeral (hf.isNumeral n hn) (by have := hfits.numerals_lt n hn; omega)
  cases f with
  | any => simp [keep, reads, unstep, legal, denotes]
  | every n =>
      have hlen : (Field.every n).text.length = n.length + 2 := rfl
      have hpos := List.length_pos_iff.mpr hf.1.1
      rw [keep, hlen, if_neg (by omega), List.take_of_length_le (by omega)]
      simp only [reads, unstep, legal, denotes, hread n (by simp [numerals])]
      rw [if_neg (by have := hf.2; omega), Int.toNat_natCast]
      ext v
      simp only [Set.mem_ofPred_eq, Set.mem_inter_iff, Set.mem_Icc]
      constructor
      · rintro ⟨hv, k, rfl⟩
        exact ⟨⟨k, rfl⟩, Nat.le_add_right _ _, hv⟩
      · rintro ⟨hk, -, hv⟩
        exact ⟨hv, hk⟩
  | list items =>
      have hmin : min 127 (Field.list items).text.length = (Field.list items).text.length :=
        min_eq_right (by have := hfits.length_lt; omega)
      have hitem : ∀ item ∈ items, item.unstep.reads = item.unstep.denotes := fun item hi =>
        item.reads_unstep fun n hn => hread n (List.mem_flatMap.mpr ⟨item, hi, hn⟩)
      rw [keep, hmin, keepItems_of_le hf.2 le_rfl]
      refine congrArg (· ∩ Set.Icc least most) (Set.ext fun v => ?_)
      simp only [Set.mem_ofPred_eq]
      refine exists_congr fun item => and_congr_right fun hi => ?_
      obtain ⟨item, hmem, rfl⟩ := List.mem_map.mp hi
      rw [hitem item hmem]

/-! ### Expressions -/

/-- The job that six tokens become. -/
def jobOf (t₀ t₁ t₂ t₃ t₄ t₅ : Bytes) : CronJob where
  seconds := parseField t₀ 0 59
  minutes := parseField t₁ 0 59
  hours := (parseField t₂ 0 23).setWidth 32
  days := (parseField t₃ 1 31).setWidth 32
  months := (parseField t₄ 1 12).setWidth 16
  weekdays := (parseField t₅ 0 6).setWidth 8

/-- The part of a time in a field, after the bitmap has been cut to `w` bits. -/
theorem hasBit_parseField {w minVal maxVal : ℕ} (hw : w ≤ 64) (hmax : maxVal < 64) {f : Field} (hf : f.WellFormed)
    {t : Bytes} (ht : t ≠ [] ∧ t <+: f.text) {v : ℕ} (hv : v < w) :
    hasBit ((parseField t minVal maxVal).setWidth w) v = true ↔ v ∈ (f.keep t.length).reads minVal maxVal := by
  rw [hasBit_eq _ (by omega), BitVec.getLsbD_setWidth, decide_eq_true hv, Bool.true_and,
    getLsbD_parseField hmax hf ht.1 ht.2]

/-- The parts of a time that the fields are about. -/
def Tm.parts (t : Tm) : ℕ × ℕ × ℕ × ℕ × ℕ × ℕ :=
  (t.tmSec, t.tmMin, t.tmHour, t.tmMday, t.tmMon + 1, t.tmWday)

/-- What is left of the fields in some tokens, as it is read. -/
def Expr.kept (E : Expr) (t₀ t₁ t₂ t₃ t₄ t₅ : Bytes) : Set (ℕ × ℕ × ℕ × ℕ × ℕ × ℕ) :=
  (E.second.keep t₀.length).reads 0 59 ×ˢ (E.minute.keep t₁.length).reads 0 59 ×ˢ
    (E.hour.keep t₂.length).reads 0 23 ×ˢ (E.day.keep t₃.length).reads 1 31 ×ˢ
    (E.month.keep t₄.length).reads 1 12 ×ˢ (E.weekday.keep t₅.length).reads 0 6

/-- The job of the beginnings of six fields matches the times in what is left of them. -/
theorem cronMatches_jobOf {E : Expr} (hwf : ∀ p ∈ E.fields, p.1.WellFormed) {t₀ t₁ t₂ t₃ t₄ t₅ : Bytes}
    (hpre : ∀ q ∈ E.fields.zip [t₀, t₁, t₂, t₃, t₄, t₅], q.2 ≠ [] ∧ q.2 <+: q.1.1.text) (t : Tm) :
    cronMatches (jobOf t₀ t₁ t₂ t₃ t₄ t₅) t = true ↔ t.parts ∈ E.kept t₀ t₁ t₂ t₃ t₄ t₅ := by
  simp only [Expr.fields, List.mem_cons, List.not_mem_nil, or_false, forall_eq_or_imp, forall_eq,
    List.zip_cons_cons, List.zip_nil_right] at hwf hpre
  obtain ⟨hwf₀, hwf₁, hwf₂, hwf₃, hwf₄, hwf₅⟩ := hwf
  obtain ⟨h₀, h₁, h₂, h₃, h₄, h₅⟩ := hpre
  have hsec : hasBit (parseField t₀ 0 59) t.tmSec = true ↔ t.tmSec ∈ (E.second.keep t₀.length).reads 0 59 := by
    rw [hasBit_eq _ (by have := t.sec_le; omega), getLsbD_parseField (by omega) hwf₀ h₀.1 h₀.2]
  have hmin : hasBit (parseField t₁ 0 59) t.tmMin = true ↔ t.tmMin ∈ (E.minute.keep t₁.length).reads 0 59 := by
    rw [hasBit_eq _ (by have := t.min_le; omega), getLsbD_parseField (by omega) hwf₁ h₁.1 h₁.2]
  have hhour := @hasBit_parseField 32 0 23 (by omega) (by omega) _ hwf₂ _ h₂ t.tmHour (by have := t.hour_le; omega)
  have hday := @hasBit_parseField 32 1 31 (by omega) (by omega) _ hwf₃ _ h₃ t.tmMday (by have := t.mday_le; omega)
  have hmonth := @hasBit_parseField 16 1 12 (by omega) (by omega) _ hwf₄ _ h₄ (t.tmMon + 1)
    (by have := t.mon_le; omega)
  have hweekday := @hasBit_parseField 8 0 6 (by omega) (by omega) _ hwf₅ _ h₅ t.tmWday (by have := t.wday_le; omega)
  simp only [cronMatches, jobOf, Bool.and_eq_true, hsec, hmin, hhour, hday, hmonth, hweekday, and_assoc]
  rfl

/-- A field whose ranges have no step. -/
def Field.Unstepped (f : Field) : Prop := f.unstep = f

/-- **Matching.** An expression of six well-formed fields without steps in ranges, which fits the buffers,
becomes a job that matches a time exactly when every part of the time lies in the set that its field denotes,
and in the legal range. -/
theorem cronMatches_iff {E : Expr} {expr : Bytes} (hwrites : E.Writes expr) (hlen : expr.length < 256)
    (hwf : ∀ p ∈ E.fields, p.1.WellFormed) (hunstepped : ∀ p ∈ E.fields, p.1.Unstepped)
    (hfits : ∀ p ∈ E.fields, p.1.Fits) :
    ∃ job, parseCronExpr expr = some job ∧ ∀ t : Tm, cronMatches job t = true ↔ E.Matches t := by
  have hwhole : expr.take 255 = expr := List.take_of_length_le (by omega)
  have htokens : strtok isBlank expr = [E.second.text, E.minute.text, E.hour.text, E.day.text, E.month.text,
      E.weekday.text] := hwrites
  refine ⟨jobOf E.second.text E.minute.text E.hour.text E.day.text E.month.text E.weekday.text, ?_, fun t => ?_⟩
  · rw [parseCronExpr, hwhole, htokens]
    rfl
  · have hread : ∀ p ∈ E.fields, (p.1.keep p.1.text.length).reads p.2.1 p.2.2 = p.1.legal p.2.1 p.2.2 := by
      intro p hp
      rw [Field.reads_keep (hwf p hp) (hfits p hp), hunstepped p hp]
    have hne : ∀ w ∈ strtok isBlank expr, w ≠ [] := fun w hw => ne_nil_of_mem_strtok hw
    rw [htokens] at hne
    simp only [Expr.fields, List.mem_cons, List.not_mem_nil, or_false, forall_eq_or_imp, forall_eq] at hread hne
    obtain ⟨hread₀, hread₁, hread₂, hread₃, hread₄, hread₅⟩ := hread
    rw [cronMatches_jobOf hwf (by simp [Expr.fields, hne]), Expr.kept, hread₀, hread₁, hread₂, hread₃, hread₄, hread₅]
    rfl

/-- Every five seconds, in some minutes of every hour. -/
theorem cronMatches_sample :
    ∃ job, parseCronExpr (ascii ['*', '/', '5', ' ', '0', '-', '3', ',', '7', ' ', '*', ' ', '*', ' ', '*', ' ', '*']) =
      some job ∧ cronMatches job ⟨10, 7, 1, 1, 0, 3, by omega, by omega, by omega, by omega, by omega, by omega⟩ =
        true := by
  let E : Expr := ⟨.every [0x35], .list [.range [0x30] [0x33], .number [0x37]], .any, .any, .any, .any⟩
  have hvalue : decimalValue [0x35] = 5 ∧ decimalValue [0x30] = 0 ∧ decimalValue [0x33] = 3 ∧
      decimalValue [0x37] = 7 := ⟨rfl, rfl, rfl, rfl⟩
  have hnumeral : IsNumeral [0x35] ∧ IsNumeral [0x30] ∧ IsNumeral [0x33] ∧ IsNumeral [0x37] := by
    decide +kernel
  obtain ⟨job, hjob, hmatches⟩ := @cronMatches_iff E
    (ascii ['*', '/', '5', ' ', '0', '-', '3', ',', '7', ' ', '*', ' ', '*', ' ', '*', ' ', '*']) rfl (by decide)
    (by simp [E, Expr.fields, Field.WellFormed, Item.WellFormed, hvalue, hnumeral])
    (by simp [E, Expr.fields, Field.Unstepped, Field.unstep, Item.unstep])
    (by
      have hany : Field.any.Fits := ⟨by decide, by simp [Field.numerals]⟩
      have hevery : E.second.Fits := ⟨by decide, by simp [E, Field.numerals, hvalue]⟩
      have hlist : E.minute.Fits := ⟨by decide, by simp [E, Field.numerals, Item.numerals, hvalue]⟩
      simp [E, Expr.fields, hany]
      exact ⟨hevery, hlist⟩)
  refine ⟨job, hjob, (hmatches _).mpr ?_⟩
  simp only [Expr.Matches, E, Field.legal, Field.denotes, Item.denotes, hvalue]
  simp
  exact ⟨⟨2, rfl⟩, .inr rfl⟩

/-! ### What is accepted -/

/-- An expression of six fields, each well formed and with a legal number to denote. -/
def Expr.WellFormed (E : Expr) : Prop :=
  ∀ p ∈ E.fields, p.1.WellFormed ∧ (p.1.legal p.2.1 p.2.2).Nonempty

/-- What the tokens keep of the fields, read without the steps of ranges, denotes the same legal numbers. -/
def Expr.Keeps (E : Expr) (tokens : List Bytes) : Prop :=
  ∀ q ∈ E.fields.zip tokens,
    (q.1.1.keep q.2.length).reads q.1.2.1 q.1.2.2 = q.1.1.legal q.1.2.1 q.1.2.2

/-- The legal numbers of the fields. -/
def Expr.legal (E : Expr) : Set (ℕ × ℕ × ℕ × ℕ × ℕ × ℕ) :=
  E.second.legal 0 59 ×ˢ E.minute.legal 0 59 ×ˢ E.hour.legal 0 23 ×ˢ E.day.legal 1 31 ×ˢ E.month.legal 1 12 ×ˢ
    E.weekday.legal 0 6

end Cron
