import LibCore.JsonHead
import LibCore.JsonSound
import LibCore.JsonUtf8

/-!
# Printing Parsed Trees

`node_toString` prints the tree of an accepted text, and `parse_JSON` reads the result again, or
rejects it. The printer escapes seven characters and writes every other byte as it is, while the
parser refuses control characters and bytes that are not UTF-8; both can come into a tree through
an escape. The printer writes a number with six digits, which may lie outside the range the
parser accepts although the number itself does not.

These are the only reasons: what is printed is accepted exactly when every string and key of the
tree, up to its first NUL, is a text, and the printed form of every number is in range. The `int`
that counts a literal is none, since a printed literal is never longer than the one it was read from.

## Main results

* `parseNumber_isNumber_iff`: a number of the grammar in front of a boundary.
* `parseStringRaw_printed`: a printed literal is accepted only if it is a text.
* `nodes_of_parse`: a parsed tree lies within the levels of the printer.
* `allStrings_countable`: its strings have literals that are counted.
* `parseJSON_nodeToString_iff`: which printed trees are accepted again.
-/

open CString Utf8

namespace Json

variable {D : Type} {dbl : Double D}

/-! ### Numbers -/

/-- A byte at which a run of digits ends and which does not make a zero hexadecimal. -/
def stopsDigits (c : UInt8) : Bool := !isdigit c && tolower c ≠ 0x78

theorem spanLen_append {p : UInt8 → Bool} {a r : Bytes} (ha : ∀ c ∈ a, p c = true)
    (hr : ∀ c ∈ r.head?, p c = false) : spanLen p (a ++ r) = a.length := by
  have hnil : r.takeWhile p = [] := by
    cases r with
    | nil => rfl
    | cons c r => simp [hr c rfl]
  rw [spanLen, List.takeWhile_append_of_pos ha, hnil, List.append_nil]

/-- What a boundary is not. -/
theorem boundary_head {r : Bytes} (h : isValidBoundary r = true) :
    ∀ c ∈ r.head?, stopsDigits c = true ∧ c ≠ 0x2E ∧ tolower c ≠ 0x65 := by
  have hclass : ∀ c : UInt8, (isspace c || c = comma || c = 0x7D || c = 0x5D) = true →
      stopsDigits c = true ∧ c ≠ 0x2E ∧ tolower c ≠ 0x65 := by
    grind [stopsDigits, tolower]
  cases r with
  | nil => simp
  | cons c r =>
      intro d hd
      obtain rfl : c = d := by simpa using hd
      exact hclass c h

theorem isdigit_of_stopsDigits {c : UInt8} (h : stopsDigits c = true) : isdigit c = false := by
  simpa using (Bool.and_eq_true_iff.mp h).1

/-- The exponent of a number in front of a boundary is taken whole. -/
theorem exponentLen_append {exp rest : Bytes} (hexp : exp = [] ∨ IsExp exp)
    (hrest : isValidBoundary rest = true) : exponentLen 0x65 (exp ++ rest) = exp.length := by
  rcases hexp with rfl | ⟨e, sign, digits, he, hsign, hdigits, rfl⟩
  · rw [List.nil_append, exponentLen, if_neg]
    · rfl
    · intro hword
      cases rest with
      | nil => simp [startsWithWord] at hword
      | cons c rest =>
          have hc : tolower c = 0x65 := by simpa [startsWithWord] using hword
          exact (boundary_head hrest c rfl).2.2 hc
  · have hword : startsWithWord [0x65] (e :: (sign ++ digits) ++ rest) = true := by
      rcases he with rfl | rfl <;> rfl
    have hspan : spanLen isdigit (digits ++ rest) = digits.length :=
      spanLen_append hdigits.2 fun c hc => isdigit_of_stopsDigits (boundary_head hrest c hc).1
    have hlen : (if (sign ++ (digits ++ rest)).head?.any fun c => c = 0x2B || c = 0x2D then 1
        else 0) = sign.length := by
      rcases hsign with rfl | rfl | rfl
      · obtain ⟨d, ds, rfl⟩ := List.exists_cons_of_ne_nil hdigits.1
        have hd : ∀ c : UInt8, isdigit c = true → (c = 0x2B || c = 0x2D) = false := by
          grind
        simp only [List.nil_append, List.cons_append, List.head?_cons, Option.any_some,
          hd d (hdigits.2 d (by simp)), Bool.false_eq_true, if_false, List.length_nil]
      · rfl
      · rfl
    have hne : digits.length ≠ 0 := fun h => hdigits.1 (List.length_eq_zero_iff.mp h)
    rw [exponentLen, if_pos hword]
    simp only [List.cons_append, List.drop_succ_cons, List.drop_zero, hlen, Nat.add_comm 1,
      List.append_assoc, List.drop_left, hspan, if_neg hne]
    simp
    omega

/-- The first byte behind the digits of a number. -/
theorem stops_fraction {frac exp rest : Bytes} (hfrac : frac = [] ∨ IsFrac frac)
    (hexp : exp = [] ∨ IsExp exp) (hrest : isValidBoundary rest = true) :
    ∀ c ∈ (frac ++ (exp ++ rest)).head?, stopsDigits c = true := by
  intro c hc
  rcases hfrac with rfl | ⟨digits, -, rfl⟩
  · rcases hexp with rfl | ⟨e, sign, digits, he, -, -, rfl⟩
    · exact (boundary_head hrest c hc).1
    · obtain rfl : e = c := by simpa using hc
      rcases he with rfl | rfl <;> decide
  · obtain rfl : 0x2E = c := by simpa using hc
    decide

/-- The unsigned part of a number in front of a boundary is taken whole. -/
theorem mantissaLen_append {int frac exp rest : Bytes} (hint : IsInt int)
    (hfrac : frac = [] ∨ IsFrac frac) (hexp : exp = [] ∨ IsExp exp)
    (hrest : isValidBoundary rest = true) :
    mantissaLen isdigit 0x65 (int ++ (frac ++ (exp ++ rest))) =
      (int ++ (frac ++ exp)).length := by
  have hspan : spanLen isdigit (int ++ (frac ++ (exp ++ rest))) = int.length :=
    spanLen_append hint.isDigits.2
      fun c hc => isdigit_of_stopsDigits (stops_fraction hfrac hexp hrest c hc)
  have hne : int.length ≠ 0 := fun h => hint.isDigits.1 (List.length_eq_zero_iff.mp h)
  have hstop := stops_fraction (.inl rfl) hexp hrest
  rw [List.nil_append] at hstop
  simp only [mantissaLen, ← List.drop_drop, hspan, List.drop_left]
  rcases hfrac with rfl | ⟨digits, hdigits, rfl⟩
  · have hpoint : ¬(exp ++ rest).head? = some 0x2E := by
      intro h
      rcases hexp with rfl | ⟨e, sign, digits, he, -, -, rfl⟩
      · exact (boundary_head hrest 0x2E h).2.1 rfl
      · obtain rfl : e = 0x2E := by simpa using h
        exact absurd he (by decide)
    simp only [List.nil_append, if_neg hpoint, Nat.zero_ne_one, if_false, List.drop_zero,
      exponentLen_append hexp hrest]
    rw [if_neg (by omega)]
    simp
  · have hspan' : spanLen isdigit (digits ++ (exp ++ rest)) = digits.length :=
      spanLen_append hdigits.2 fun c hc => isdigit_of_stopsDigits (hstop c hc)
    simp only [List.cons_append, List.head?_cons, if_true, List.drop_succ_cons, List.drop_zero,
      hspan', List.drop_left, exponentLen_append hexp hrest]
    rw [if_neg (by omega)]
    simp
    omega

/-- A number in front of a boundary is not hexadecimal. -/
theorem not_hex_append {int r : Bytes} (hint : IsInt int)
    (hr : ∀ c ∈ r.head?, stopsDigits c = true) :
    startsWithWord (ascii ['0', 'x']) (int ++ r) = false := by
  have hdigit : ∀ c : UInt8, isdigit c = true → tolower c ≠ 0x78 := by grind [tolower]
  rw [Bool.eq_false_iff]
  intro hword
  have hmap : ((int ++ r).take 2).map tolower = [0x30, 0x78] := of_decide_eq_true hword
  obtain ⟨c, ds, rfl⟩ := List.exists_cons_of_ne_nil hint.isDigits.1
  cases ds with
  | nil =>
      cases r with
      | nil => simp at hmap
      | cons d r =>
          simp only [List.cons_append, List.nil_append, List.take_succ_cons, List.map_cons,
            List.cons.injEq] at hmap
          have hstop := (Bool.and_eq_true_iff.mp (hr d rfl)).2
          exact absurd hmap.2.1 (by simpa using hstop)
  | cons d ds =>
      simp only [List.cons_append, List.take_succ_cons, List.map_cons, List.cons.injEq] at hmap
      exact hdigit d (hint.isDigits.2 d (by simp)) hmap.2.1

theorem leadingZero_append {int r : Bytes} (hint : IsInt int)
    (hr : ∀ c ∈ r.head?, stopsDigits c = true) : leadingZero (int ++ r) = false := by
  have hminus : ¬(int ++ r).head? = some 0x2D := by
    intro h
    have hdigit := hint.isDigits.head r
    rw [h] at hdigit
    exact absurd hdigit (by decide)
  simp only [leadingZero, if_neg hminus]
  rcases hint with rfl | ⟨hdigits, hhead⟩
  · cases r with
    | nil => rfl
    | cons c r =>
        simp only [List.cons_append, List.nil_append, List.head?_cons, List.drop_succ_cons,
          List.drop_zero, Option.any_some, isdigit_of_stopsDigits (hr c rfl), Bool.and_false]
  · obtain ⟨c, ds, rfl⟩ := List.exists_cons_of_ne_nil hdigits.1
    have hc : ¬c = 0x30 := by simpa using hhead
    simp [hc]

/-- A text that ends in a digit has no dangling exponent. -/
theorem danglingExponent_append {a digits : Bytes} (h : IsDigits digits) :
    danglingExponent (a ++ digits) = false := by
  have hclass : ∀ c : UInt8, isdigit c = true →
      (c = 0x65 || c = 0x45) = false ∧ (c = 0x2B || c = 0x2D) = false := by
    grind
  rw [danglingExponent, List.reverse_append]
  cases hrev : digits.reverse with
  | nil => exact absurd (List.reverse_eq_nil_iff.mp hrev) h.1
  | cons c ds =>
      have hc : c ∈ digits := List.mem_reverse.mp (by rw [hrev]; simp)
      obtain ⟨he, hsign⟩ := hclass c (h.2 c hc)
      rw [List.cons_append]
      cases ds ++ a.reverse with
      | nil => exact he
      | cons d ds =>
          simp only [he, hsign, Bool.false_and, Bool.or_self]

/-- The checks of `parse_number` on a number of the grammar. -/
theorem IsNumber.checks {t : Bytes} (h : IsNumber t) :
    pointHasDigit t = true ∧ danglingExponent t = false := by
  obtain ⟨minus, int, frac, exp, hminus, hint, hfrac, hexp, rfl⟩ := h
  constructor
  · have hdrop : (minus ++ (int ++ (frac ++ exp))).dropWhile (· ≠ 0x2E) =
        (frac ++ exp).dropWhile (· ≠ 0x2E) := by
      rcases hminus with rfl | rfl
      · exact dropWhile_ne_point hint.isDigits
      · exact dropWhile_ne_point hint.isDigits
    rw [pointHasDigit, hdrop]
    rcases hfrac with rfl | ⟨digits, hdigits, rfl⟩
    · rcases hexp with rfl | ⟨e, sign, digits, he, hsign, hdigits, rfl⟩
      · rfl
      · have hnil : ((e :: (sign ++ digits)).dropWhile (· ≠ 0x2E)) = [] := by
          have hpoint : ∀ c : UInt8, isdigit c = true → c ≠ 0x2E := by grind
          rw [List.dropWhile_eq_nil_iff]
          intro c hc
          rw [decide_eq_true_eq]
          rcases List.mem_cons.mp hc with rfl | hc
          · rcases he with rfl | rfl <;> decide
          · rcases List.mem_append.mp hc with hc | hc
            · rcases hsign with rfl | rfl | rfl
              · cases hc
              · rw [List.mem_singleton.mp hc]
                decide
              · rw [List.mem_singleton.mp hc]
                decide
            · exact hpoint c (hdigits.2 c hc)
        rw [List.nil_append, hnil]
    · exact hdigits.head exp
  · rcases hexp with rfl | ⟨e, sign, digits, -, -, hdigits, rfl⟩
    · rcases hfrac with rfl | ⟨digits, hdigits, rfl⟩
      · have hsplit : minus ++ (int ++ ([] ++ [])) = minus ++ int := by simp
        rw [hsplit]
        exact danglingExponent_append hint.isDigits
      · have hsplit : minus ++ (int ++ (0x2E :: digits ++ [])) =
            (minus ++ (int ++ [0x2E])) ++ digits := by simp
        rw [hsplit]
        exact danglingExponent_append hdigits
    · have hsplit : minus ++ (int ++ (frac ++ e :: (sign ++ digits))) =
          (minus ++ (int ++ (frac ++ e :: sign))) ++ digits := by simp
      rw [hsplit]
      exact danglingExponent_append hdigits

/-- `strtod` takes a number in front of a boundary whole, and it has no leading zero. -/
theorem IsNumber.strtodLen_append {t rest : Bytes} (h : IsNumber t)
    (hrest : isValidBoundary rest = true) :
    strtodLen (t ++ rest) = t.length ∧ leadingZero (t ++ rest) = false := by
  obtain ⟨minus, int, frac, exp, hminus, hint, hfrac, hexp, rfl⟩ := h
  have hstop := stops_fraction hfrac hexp hrest
  have hhead := hint.isDigits.head (frac ++ (exp ++ rest))
  have hhex := not_hex_append hint hstop
  have hlen := mantissaLen_append hint hfrac hexp hrest
  have hzero := leadingZero_append hint hstop
  rcases hminus with rfl | rfl
  · have hsplit : [] ++ (int ++ (frac ++ exp)) ++ rest = int ++ (frac ++ (exp ++ rest)) := by simp
    rw [hsplit, strtodLen_of_digit hhead hhex, hlen]
    exact ⟨rfl, hzero⟩
  · have hsplit : [0x2D] ++ (int ++ (frac ++ exp)) ++ rest =
        0x2D :: (int ++ (frac ++ (exp ++ rest))) := by simp
    rw [hsplit, strtodLen_minus hhead hhex, hlen, leadingZero_minus hhead]
    refine ⟨?_, hzero⟩
    rw [List.singleton_append, List.length_cons, Nat.add_comm]

/-- A **number** of the grammar in front of a boundary is read whole, if it is in range. -/
theorem parseNumber_isNumber_iff {t rest rest' : Bytes} {v : Obj D} (h : IsNumber t)
    (hrest : isValidBoundary rest = true) :
    parseNumber dbl (t ++ rest) = .ok (v, rest') ↔
      InRange dbl t ∧ rest' = rest ∧ v = .jNumber (dbl.strtod t).1 := by
  obtain ⟨hlen, hzero⟩ := h.strtodLen_append hrest
  obtain ⟨hpoint, hexponent⟩ := h.checks
  have hpos : 0 < t.length := by
    obtain ⟨minus, int, frac, exp, -, hint, -, -, rfl⟩ := h
    have := List.length_pos_of_ne_nil hint.isDigits.1
    simp only [List.length_append]
    omega
  rw [parseNumber_ok_iff, hlen, List.take_left, List.drop_left]
  simp only [hzero, hpos, hpoint, hexponent, hrest, true_and, and_true]

theorem IsDigits.zero_notMem {digits : Bytes} (h : IsDigits digits) : 0 ∉ digits := by
  intro hmem
  exact absurd (h.2 0 hmem) (by decide)

/-- A number of the grammar starts with a minus or a digit, and has no NUL. -/
theorem startsNumber_of_isNumber {d : D} (h : IsNumber (dbl.formatG d)) : StartsNumber dbl d := by
  obtain ⟨minus, int, frac, exp, hminus, hint, hfrac, hexp, heq⟩ := h
  rw [StartsNumber, heq]
  constructor
  · rcases hminus with rfl | rfl
    · obtain ⟨c, ds, rfl⟩ := List.exists_cons_of_ne_nil hint.isDigits.1
      exact ⟨c, ds ++ (frac ++ exp), rfl, by rw [hint.isDigits.2 c (by simp), Bool.or_true]⟩
    · exact ⟨0x2D, _, rfl, rfl⟩
  · simp only [List.mem_append, not_or]
    refine ⟨?_, hint.isDigits.zero_notMem, ?_, ?_⟩
    · rcases hminus with rfl | rfl <;> decide
    · rcases hfrac with rfl | ⟨digits, hdigits, rfl⟩
      · exact List.not_mem_nil
      · rw [List.mem_cons, not_or]
        exact ⟨by decide, hdigits.zero_notMem⟩
    · rcases hexp with rfl | ⟨e, sign, digits, he, hsign, hdigits, rfl⟩
      · exact List.not_mem_nil
      · rw [List.mem_cons, List.mem_append, not_or, not_or]
        refine ⟨?_, ?_, hdigits.zero_notMem⟩
        · rcases he with rfl | rfl <;> decide
        · rcases hsign with rfl | rfl | rfl <;> decide

/-! ### Literals -/

/-- The first loop passes a printed literal only if it has no raw control character. -/
theorem scanString_printed {s rest body rest' : Bytes}
    (h : scanString (s.flatMap escapeByte ++ quote :: rest) = .ok (body, rest')) :
    (∀ c ∈ s, 0x20 ≤ c ∨ c = 0x08 ∨ c = 0x0C ∨ c = 0x0A ∨ c = 0x0D ∨ c = 0x09) ∧
      body = s.flatMap escapeByte ∧ rest' = rest := by
  have hescaped : ∀ c : UInt8, escapeByte c = [c] ∨
      (0x20 ≤ c ∨ c = 0x08 ∨ c = 0x0C ∨ c = 0x0A ∨ c = 0x0D ∨ c = 0x09) := by
    grind [escapeByte]
  induction s generalizing body with
  | nil =>
      rw [List.flatMap_nil, List.nil_append, scanString.eq_def] at h
      simp only [if_true, Except.ok.injEq, Prod.mk.injEq] at h
      exact ⟨by simp, h.1.symm, h.2.symm⟩
  | cons c s ih =>
      rw [List.flatMap_cons, List.append_assoc] at h
      rcases escapeByte_cases c with ⟨he, hq, hb⟩ | ⟨e, hmem, he, -, -⟩
      · rw [he, List.singleton_append, scanString.eq_def] at h
        simp only [if_neg hq, if_neg hb] at h
        split at h
        · exact absurd h reportError_ne_ok
        · rename_i hctl
          cases hs : scanString (s.flatMap escapeByte ++ quote :: rest) with
          | error e => simp [hs, Except.map] at h
          | ok r =>
              obtain ⟨body', rest''⟩ := r
              simp only [hs, Except.map, Except.ok.injEq, Prod.mk.injEq] at h
              obtain ⟨rfl, rfl⟩ := h
              obtain ⟨hall, rfl, rfl⟩ := ih hs
              refine ⟨List.forall_mem_cons.mpr ⟨.inl (by grind), hall⟩, ?_, rfl⟩
              rw [List.flatMap_cons, he]
              rfl
      · rw [he] at h
        simp only [List.cons_append, List.nil_append] at h
        rw [scanString, if_neg (by decide), if_pos rfl] at h
        cases hs : scanString (s.flatMap escapeByte ++ quote :: rest) with
        | error e => simp [hs, Except.map] at h
        | ok r =>
            obtain ⟨body', rest''⟩ := r
            simp only [hs, Except.map, Except.ok.injEq, Prod.mk.injEq] at h
            obtain ⟨rfl, rfl⟩ := h
            obtain ⟨hall, rfl, rfl⟩ := ih hs
            refine ⟨List.forall_mem_cons.mpr ⟨?_, hall⟩, ?_, rfl⟩
            · rcases hescaped c with hself | hc
              · rw [he] at hself
                simp at hself
              · exact hc
            · rw [List.flatMap_cons, he]
              rfl

/-- Bytes from `0x80` on come from themselves. -/
theorem flatMap_escapeByte_split {t r s : Bytes} (ht : ∀ b ∈ t, 0x80 ≤ b)
    (h : s.flatMap escapeByte = t ++ r) :
    ∃ s', s = t ++ s' ∧ r = s'.flatMap escapeByte := by
  induction t generalizing s with
  | nil => exact ⟨s, rfl, h.symm⟩
  | cons b t ih =>
      cases s with
      | nil => simp at h
      | cons c s =>
          have hb := ht b (by simp)
          rw [List.flatMap_cons] at h
          rcases escapeByte_cases c with ⟨he, -, -⟩ | ⟨e, -, he, -, -⟩
          · rw [he, List.singleton_append, List.cons_append, List.cons.injEq] at h
            obtain ⟨rfl, h⟩ := h
            obtain ⟨s', rfl, hr⟩ := ih (fun x hx => ht x (by simp [hx])) h
            exact ⟨s', rfl, hr⟩
          · rw [he] at h
            rw [← (List.cons.inj h).1] at hb
            exact absurd hb (by decide)

/-- The second loop passes a printed literal only if it is UTF-8. -/
theorem decodeLoop_printed {fuel : ℕ} {s str : Bytes}
    (h : decodeLoop fuel (s.flatMap escapeByte) = .ok str) : WellFormed s := by
  induction fuel generalizing s str with
  | zero =>
      cases s with
      | nil => exact .nil
      | cons c s =>
          rcases escapeByte_cases c with ⟨he, -, -⟩ | ⟨e, -, he, -, -⟩
          · rw [List.flatMap_cons, he] at h
            simp [decodeLoop] at h
          · rw [List.flatMap_cons, he] at h
            simp [decodeLoop] at h
  | succ fuel ih =>
      -- the loop goes on behind one round
      have hnext : ∀ {a : UInt8} {src : Bytes}, decodeLoop (fuel + 1) (a :: src) = .ok str →
          ∃ out src' str', decodeStep (a :: src) = .ok (out, src') ∧
            decodeLoop fuel src' = .ok str' := by
        intro a src h
        rw [decodeLoop] at h
        cases hs : decodeStep (a :: src) with
        | error e => simp [hs] at h
        | ok r =>
            simp only [hs] at h
            cases hl : decodeLoop fuel r.2 with
            | error e => simp [hl, Except.map] at h
            | ok str' => exact ⟨r.1, r.2, str', rfl, hl⟩
      cases s with
      | nil => exact .nil
      | cons c s =>
          rw [List.flatMap_cons] at h
          rcases escapeByte_cases c with ⟨he, -, hb⟩ | ⟨e, hmem, he, -, hlow⟩
          · rw [he, List.singleton_append] at h
            obtain ⟨out, src', str', hstep, hloop⟩ := hnext h
            rw [decodeStep.eq_def] at hstep
            simp only [if_neg hb] at hstep
            by_cases hhigh : 0x80 ≤ c
            · rw [if_pos hhigh] at hstep
              obtain ⟨hchar, heq⟩ := decodeSequence_ok hstep
              obtain ⟨a, t, rfl⟩ := List.exists_cons_of_ne_nil hchar.ne_nil
              obtain ⟨rfl, hsplit⟩ := List.cons.inj heq
              have hbytes := hchar.high hhigh
              obtain ⟨s', rfl, rfl⟩ :=
                flatMap_escapeByte_split (fun b hb => hbytes b (by simp [hb])) hsplit
              exact .cons hchar (ih hloop)
            · rw [if_neg hhigh] at hstep
              simp only [Except.ok.injEq, Prod.mk.injEq] at hstep
              obtain ⟨-, rfl⟩ := hstep
              have hchar : IsChar [c] := by
                simp only [IsChar]
                grind
              exact .cons hchar (ih hloop)
          · rw [he, List.cons_append, List.singleton_append] at h
            obtain ⟨out, src', str', hstep, hloop⟩ := hnext h
            have hu : e ≠ 0x75 := by
              rintro rfl
              exact absurd hmem (by decide)
            simp only [decodeStep, if_true, if_neg hu, Except.ok.injEq, Prod.mk.injEq] at hstep
            obtain ⟨-, rfl⟩ := hstep
            have hchar : IsChar [c] := by
              simp only [IsChar]
              grind
            exact .cons hchar (ih hloop)

/-- A printed **literal** is accepted only if it is a text. -/
theorem parseStringRaw_printed {s rest str rest' : Bytes}
    (h : parseStringRaw (s.flatMap escapeByte ++ quote :: rest) = .ok (str, rest')) :
    IsText s ∧ rest' = rest := by
  obtain ⟨body, hscan, -, hdec⟩ := parseStringRaw_ok_iff.mp h
  obtain ⟨hall, rfl, rfl⟩ := scanString_printed hscan
  exact ⟨⟨decodeLoop_printed hdec, hall⟩, rfl⟩

/-! ### Lists -/

/-- Behind a comma a loop goes on with the next item. -/
theorem continues_comma {closing d : UInt8} {next more : Bytes} (hclosing : closing ≠ comma)
    (hd : isspace d = false) (h : Continues closing (comma :: d :: more) next) :
    next = d :: more := by
  rcases h with ⟨s', hs, rfl⟩ | ⟨s', hs, rfl⟩
  · rw [skipWs_cons rfl, List.cons.injEq] at hs
    rw [← hs.2, skipWs_cons hd]
  · rw [skipWs_cons rfl, List.cons.injEq] at hs
    exact absurd hs.1.symm hclosing

/-- At the closing bracket a loop stays where it is. -/
theorem continues_close {closing : UInt8} {next rest : Bytes} (hclosing : closing ≠ comma)
    (hsp : isspace closing = false) (h : Continues closing (closing :: rest) next) :
    next = closing :: rest := by
  rcases h with ⟨s', hs, rfl⟩ | ⟨s', hs, rfl⟩
  · rw [skipWs_cons hsp, List.cons.injEq] at hs
    exact absurd hs.1 hclosing
  · rw [skipWs_cons hsp, List.cons.injEq] at hs
    rw [hs.2]

/-- The loop of `parse_array` accepts printed items only if it accepts each of them. -/
theorem parseElements_printed {α : Type} (text : α → Bytes) {good : α → Prop} {depth : ℕ}
    {rest : Bytes} {items : List α}
    (hhead : ∀ a ∈ items, ∃ c s, text a = c :: s ∧ isspace c = false ∧ c ≠ 0x5D)
    (hitem : ∀ a ∈ items, ∀ fuel rest (v : Obj D) rest', isValidBoundary rest = true →
      parseValue dbl fuel depth (text a ++ rest) = .ok (v, rest') → good a ∧ rest' = rest)
    {fuel : ℕ} {list : List (Obj D)} {v : Obj D} {rest' : Bytes}
    (h : parseElements dbl fuel depth list (commaSeparated (items.map text) ++ 0x5D :: rest) =
      .ok (v, rest')) :
    (∀ a ∈ items, good a) ∧ rest' = rest := by
  induction items generalizing fuel list with
  | nil =>
      rw [List.map_nil, commaSeparated, List.nil_append] at h
      cases fuel with
      | zero => simp [parseElements] at h
      | succ fuel =>
          rw [parseElements_close] at h
          simp only [Except.ok.injEq, Prod.mk.injEq] at h
          exact ⟨by simp, h.2.symm⟩
  | cons t items ih =>
      cases fuel with
      | zero => simp [parseElements] at h
      | succ fuel =>
          have ih := @ih (fun a ha => hhead a (by simp [ha])) (fun a ha => hitem a (by simp [ha]))
          obtain ⟨c, s, hprint, hc, hc'⟩ := hhead t (by simp)
          have hitem₁ := hitem t (by simp)
          obtain ⟨r, hr⟩ := commaSeparated_head (c := c) (s := s) (items.map text) (0x5D :: rest)
          rw [← hprint] at hr
          rw [List.map_cons] at h
          rcases parseElements_ok h with ⟨hw, -⟩ | ⟨val, s', next, -, hv, ⟨hn, -⟩, he⟩
          · rw [hr, skipWs_cons hc, List.cons.injEq] at hw
            exact absurd hw.1 hc'
          · rw [hr, skipWs_cons hc, ← hr] at hv
            cases items with
            | nil =>
                obtain ⟨hgood, rfl⟩ := hitem₁ _ _ _ _ rfl hv
                rw [continues_close (by decide) rfl hn] at he
                exact ⟨by simpa using hgood, (ih he).2⟩
            | cons u items =>
                obtain ⟨d, s'', hprint', hd, -⟩ := hhead u (by simp)
                obtain ⟨more, hmore⟩ := commaSeparated_head (c := d) (s := s'')
                  (items.map text) (0x5D :: rest)
                rw [← hprint'] at hmore
                simp only [List.map_cons, commaSeparated, List.append_assoc,
                  List.cons_append] at hv ih
                rw [hmore] at hv ih
                obtain ⟨hgood, rfl⟩ := hitem₁ _ _ _ _ rfl hv
                rw [continues_comma (by decide) hd hn] at he
                obtain ⟨hall, hrest⟩ := ih he
                exact ⟨List.forall_mem_cons.mpr ⟨hgood, hall⟩, hrest⟩

/-- The loop of `parse_object` accepts printed members only if it accepts each of them. -/
theorem parseMembers_printed {levels : ℕ} {good : Obj D → Prop} {depth : ℕ} {rest : Bytes}
    {nodes : List (Bytes × Obj D)}
    (hitem : ∀ e ∈ nodes, ∀ fuel rest (v : Obj D) rest', isValidBoundary rest = true →
      parseValue dbl fuel depth (stringifyLevels dbl depthMarker levels e.2 ++ rest) =
        .ok (v, rest') → good e.2 ∧ rest' = rest)
    {fuel : ℕ} {map : HashMap (Obj D)} {v : Obj D} {rest' : Bytes}
    (h : parseMembers dbl fuel depth map
      (commaSeparated (nodes.map (memberText dbl levels)) ++ 0x7D :: rest) = .ok (v, rest')) :
    (∀ e ∈ nodes, IsText (cstr e.1) ∧ good e.2) ∧ rest' = rest := by
  induction nodes generalizing fuel map with
  | nil =>
      rw [List.map_nil, commaSeparated, List.nil_append] at h
      cases fuel with
      | zero => simp [parseMembers] at h
      | succ fuel =>
          rw [parseMembers_close] at h
          simp only [Except.ok.injEq, Prod.mk.injEq] at h
          exact ⟨by simp, h.2.symm⟩
  | cons e nodes ih =>
      cases fuel with
      | zero => simp [parseMembers] at h
      | succ fuel =>
          have ih := @ih (fun a ha => hitem a (by simp [ha]))
          have hitem₁ := hitem e (by simp)
          -- the text of the loop: the key, a colon, the value and what follows it
          obtain ⟨tail, htail⟩ : ∃ tail, commaSeparated ((e :: nodes).map (memberText dbl levels)) ++
              0x7D :: rest = memberText dbl levels e ++ tail ∧
                (nodes = [] ∧ tail = 0x7D :: rest ∨ ∃ more, tail = comma :: quote :: more ∧
                  commaSeparated (nodes.map (memberText dbl levels)) ++ 0x7D :: rest =
                    quote :: more) := by
            cases nodes with
            | nil => exact ⟨_, rfl, .inl ⟨rfl, rfl⟩⟩
            | cons e' nodes =>
                obtain ⟨more, hmore⟩ := commaSeparated_head (c := quote)
                  (s := (cstr e'.1).flatMap escapeByte ++
                    quote :: 0x3A :: stringifyLevels dbl depthMarker levels e'.2)
                  (nodes.map (memberText dbl levels)) (0x7D :: rest)
                rw [← sbAppendEscaped_append] at hmore
                refine ⟨comma :: quote :: more, ?_, .inr ⟨more, rfl, hmore⟩⟩
                simp only [List.map_cons, commaSeparated, List.append_assoc, List.cons_append]
                exact congrArg (fun r => memberText dbl levels e ++ comma :: r) hmore
          obtain ⟨htext, hcases⟩ := htail
          rw [htext, memberText, List.append_assoc, sbAppendEscaped_append] at h
          rcases parseMembers_ok h with ⟨hw, -⟩ |
            ⟨s, key, s₁, s₂, val, s₃, next, hw, hstr, hw₁, hv, ⟨hn, -⟩, hm⟩
          · rw [skipWs_cons rfl, List.cons.injEq] at hw
            exact absurd hw.1 (by decide)
          · rw [skipWs_cons rfl, List.cons.injEq] at hw
            rw [← hw.2] at hstr
            obtain ⟨hkey, rfl⟩ := parseStringRaw_printed hstr
            rw [List.cons_append, skipWs_cons rfl, List.cons.injEq] at hw₁
            rw [← hw₁.2] at hv
            rcases hcases with ⟨rfl, rfl⟩ | ⟨more, rfl, hmore⟩
            · obtain ⟨hgood, rfl⟩ := hitem₁ _ _ _ _ rfl hv
              rw [continues_close (by decide) rfl hn] at hm
              exact ⟨by simpa using ⟨hkey, hgood⟩, (ih hm).2⟩
            · obtain ⟨hgood, rfl⟩ := hitem₁ _ _ _ _ rfl hv
              rw [continues_comma (by decide) rfl hn, ← hmore] at hm
              obtain ⟨hall, hrest⟩ := ih hm
              exact ⟨List.forall_mem_cons.mpr ⟨⟨hkey, hgood⟩, hall⟩, hrest⟩

/-! ### Values -/

/-- A `double` that is neither infinite nor a NaN. -/
def IsFinite (dbl : Double D) (d : D) : Prop := dbl.isinf d = false ∧ dbl.isnan d = false

/-- `parse_value` on a literal. -/
theorem parseValue_literal {fuel depth : ℕ} {s rest : Bytes} {v : Obj D}
    (h : parseValue dbl (fuel + 1) depth (quote :: s) = .ok (v, rest)) :
    ∃ str, parseStringRaw s = .ok (str, rest) := by
  obtain ⟨-, c, t, hw, hcases⟩ := parseValue_ok h
  rw [skipWs_cons rfl, List.cons.injEq] at hw
  obtain ⟨rfl, rfl⟩ := hw
  rcases hcases with ⟨-, str, hs, -⟩ | ⟨hc, -⟩ | ⟨hc, -⟩ | ⟨hc, -⟩ | ⟨hc, -⟩
  · exact ⟨str, hs⟩
  · exact absurd hc (by decide)
  · exact absurd hc (by decide)
  · exact absurd hc (by decide)
  · exact absurd rfl hc

section Printed

variable (hfmt : ∀ d, IsFinite dbl d → IsNumber (dbl.formatG d))

include hfmt

/-- A printed **value** in front of a boundary is accepted only if its strings are texts and its
numbers are in range, by induction on the levels. -/
theorem parseValue_printed {P : Bytes → Prop} {levels depth fuel : ℕ} {t v : Obj D} {rest rest' : Bytes}
    (hn : Nodes P (IsFinite dbl) levels t) (hrest : isValidBoundary rest = true)
    (h : parseValue dbl fuel depth (stringifyLevels dbl depthMarker levels t ++ rest) =
      .ok (v, rest')) :
    Nodes (fun s => IsText (cstr s)) (fun d => InRange dbl (dbl.formatG d)) levels t ∧
      rest' = rest := by
  have hstart : ∀ d, IsFinite dbl d → StartsNumber dbl d :=
    fun d hd => startsNumber_of_isNumber (hfmt d hd)
  induction levels generalizing t v depth fuel rest rest' with
  | zero => exact hn.elim
  | succ levels ih =>
      cases fuel with
      | zero => simp [parseValue] at h
      | succ fuel =>
          have hd : ¬depth > maxJsonDepth := not_lt.mpr (parseValue_ok h).1
          cases t with
          | jString s =>
              rw [stringifyLevels, sbAppendEscaped_append] at h
              obtain ⟨str, hs⟩ := parseValue_literal h
              exact parseStringRaw_printed hs
          | jNumber d =>
              have hnumber : IsNumber (dbl.formatG d) := hfmt d hn
              obtain ⟨⟨c, s, hprint, hc⟩, -⟩ := hstart d hn
              rw [stringifyLevels, hprint, List.cons_append, parseValue_number hd hc,
                ← List.cons_append, ← hprint, parseNumber_isNumber_iff hnumber hrest] at h
              exact ⟨h.1, h.2.1⟩
          | jBool b =>
              have hword : parseValue dbl (fuel + 1) depth (boolText b ++ rest) =
                  .ok (.jBool b, rest) := by
                rw [← parseWord_boolText hrest b]
                cases b
                · rw [boolText_false]
                  exact parseValue_word hd (by simp) _
                · rw [boolText_true]
                  exact parseValue_word hd (by simp) _
              rw [stringifyLevels, hword] at h
              simp only [Except.ok.injEq, Prod.mk.injEq] at h
              exact ⟨trivial, h.2.symm⟩
          | jNull =>
              have hword : parseValue dbl (fuel + 1) depth (nullText ++ rest) =
                  .ok (.jNull, rest) := by
                rw [← parseWord_nullText hrest, nullText_eq]
                exact parseValue_word hd (by simp) _
              rw [stringifyLevels, hword] at h
              simp only [Except.ok.injEq, Prod.mk.injEq] at h
              exact ⟨trivial, h.2.symm⟩
          | arrayList items =>
              simp only [stringifyLevels, List.cons_append, List.append_assoc,
                List.nil_append] at h
              rw [parseValue_array hd] at h
              exact parseElements_printed (stringifyLevels dbl depthMarker levels)
                (fun o ho => stringifyLevels_head hstart (hn o ho))
                (fun o ho fuel rest v rest' hrest h => ih (hn o ho) hrest h) h
          | hashMap map =>
              simp only [stringifyLevels, List.cons_append, List.append_assoc,
                List.nil_append] at h
              rw [parseValue_object hd] at h
              exact parseMembers_printed
                (fun e he fuel rest v rest' hrest h => ih (hn e he).2 hrest h) h
          | jsonNode o a core => exact ih hn hrest h

end Printed

/-! ### Parsed trees -/

/-- The tree of a **successful call** lies within the levels the printer has at its depth, and its
numbers are finite. -/
theorem nodes_of_parse (fuel : ℕ) :
    (∀ depth ptr (v : Obj D) rest, parseValue dbl fuel depth ptr = .ok (v, rest) →
        Nodes (fun _ => True) (IsFinite dbl) (maxJsonDepth + 1 - depth) v) ∧
      (∀ depth map ptr (v : Obj D) rest, 0 < map.capacity →
        (∀ e ∈ map.entries, Nodes (fun _ => True) (IsFinite dbl) (maxJsonDepth + 1 - depth) e.2) →
        parseMembers dbl fuel depth map ptr = .ok (v, rest) →
        ∃ map', v = .hashMap map' ∧ ∀ e ∈ map'.entries,
          Nodes (fun _ => True) (IsFinite dbl) (maxJsonDepth + 1 - depth) e.2) ∧
      ∀ depth list ptr (v : Obj D) rest,
        (∀ o ∈ list, Nodes (fun _ => True) (IsFinite dbl) (maxJsonDepth + 1 - depth) o) →
        parseElements dbl fuel depth list ptr = .ok (v, rest) →
        ∃ items, v = .arrayList items ∧
          ∀ o ∈ items, Nodes (fun _ => True) (IsFinite dbl) (maxJsonDepth + 1 - depth) o := by
  induction fuel with
  | zero =>
      refine ⟨?_, ?_, ?_⟩
      · intro depth ptr v rest h
        simp [parseValue] at h
      · intro depth map ptr v rest _ _ h
        simp [parseMembers] at h
      · intro depth list ptr v rest _ h
        simp [parseElements] at h
  | succ fuel ih =>
      obtain ⟨ihv, ihm, ihe⟩ := ih
      refine ⟨?_, ?_, ?_⟩
      · intro depth ptr v rest h
        obtain ⟨hd, c, s, hw, hcases⟩ := parseValue_ok h
        obtain ⟨levels, hlevels⟩ : ∃ levels, maxJsonDepth + 1 - depth = levels + 1 :=
          ⟨maxJsonDepth - depth, by omega⟩
        have hdepth : maxJsonDepth + 1 - (depth + 1) = levels := by omega
        rw [hlevels]
        rcases hcases with ⟨-, str, -, rfl⟩ | ⟨-, hn⟩ | ⟨-, hm⟩ | ⟨-, he⟩ | ⟨-, hword⟩
        · trivial
        · obtain ⟨⟨-, -, -, ⟨-, hfinite⟩, -, -⟩, -, rfl⟩ := parseNumber_ok_iff.mp hn
          exact Bool.or_eq_false_iff.mp hfinite
        · obtain ⟨map, rfl, hmap⟩ :=
            ihm _ _ _ _ _ (HashMap.capacity_new_pos 16) (by simp) hm
          rw [hdepth] at hmap
          exact fun e he => ⟨trivial, hmap e he⟩
        · obtain ⟨items, rfl, hitems⟩ := ihe _ _ _ _ _ (by simp) he
          rwa [hdepth] at hitems
        · rcases parseWord_ok hword with ⟨rfl, -⟩ | ⟨rfl, -⟩ | ⟨rfl, -⟩
          · trivial
          · trivial
          · trivial
      · intro depth map ptr v rest hcap hmap h
        rcases parseMembers_ok h with ⟨-, rfl⟩ | ⟨s, key, s₁, s₂, val, s₃, next, -, -, -, hv, -, hm⟩
        · exact ⟨map, rfl, hmap⟩
        · have hval := ihv _ _ _ _ hv
          refine ihm _ _ _ _ _ (by rwa [HashMap.capacity_put]) (fun e he => ?_) hm
          rcases mem_entries_put hcap he with hold | ⟨hnew, -⟩
          · exact hmap e hold
          · rwa [hnew]
      · intro depth list ptr v rest hlist h
        rcases parseElements_ok h with ⟨-, rfl⟩ | ⟨val, s, next, -, hv, -, he⟩
        · exact ⟨list, rfl, hlist⟩
        · have hval := ihv _ _ _ _ hv
          refine ihe _ _ _ _ _ (fun o ho => ?_) he
          rcases List.mem_append.mp ho with ho | ho
          · exact hlist o ho
          · rwa [List.mem_singleton.mp ho]

/-- Every number satisfies `Q`. -/
inductive AllNumbers (Q : D → Prop) : Obj D → Prop
  | jString {str : Bytes} : AllNumbers Q (.jString str)
  | jNumber {d : D} : Q d → AllNumbers Q (.jNumber d)
  | jBool {b : Bool} : AllNumbers Q (.jBool b)
  | jNull : AllNumbers Q .jNull
  | arrayList {items : List (Obj D)} :
      (∀ o ∈ items, AllNumbers Q o) → AllNumbers Q (.arrayList items)
  | hashMap {map : HashMap (Obj D)} :
      (∀ e ∈ map.entries, AllNumbers Q e.2) → AllNumbers Q (.hashMap map)
  | jsonNode {isObj isArr : Bool} {core : Obj D} :
      AllNumbers Q core → AllNumbers Q (.jsonNode isObj isArr core)

theorem Nodes.allStrings {P : Bytes → Prop} {Q : D → Prop} {levels : ℕ} {t : Obj D}
    (h : Nodes P Q levels t) : AllStrings P t ∧ AllNumbers Q t := by
  induction levels generalizing t with
  | zero => exact h.elim
  | succ levels ih =>
      cases t with
      | jString s => exact ⟨.jString h, .jString⟩
      | jNumber d => exact ⟨.jNumber, .jNumber h⟩
      | jBool b => exact ⟨.jBool, .jBool⟩
      | jNull => exact ⟨.jNull, .jNull⟩
      | arrayList items =>
          exact ⟨.arrayList fun o ho => (ih (h o ho)).1, .arrayList fun o ho => (ih (h o ho)).2⟩
      | hashMap map =>
          exact ⟨.hashMap (fun e he => (h e he).1) fun e he => (ih (h e he).2).1,
            .hashMap fun e he => (ih (h e he).2).2⟩
      | jsonNode o a core => exact ⟨.jsonNode (ih h).1, .jsonNode (ih h).2⟩

theorem Nodes.of_allStrings {P P' : Bytes → Prop} {Q Q' : D → Prop} {levels : ℕ} {t : Obj D}
    (h : Nodes P' Q' levels t) (hs : AllStrings P t) (hn : AllNumbers Q t) :
    Nodes P Q levels t := by
  induction levels generalizing t with
  | zero => exact h.elim
  | succ levels ih =>
      cases t with
      | jString s =>
          cases hs with
          | jString hs => exact hs
      | jNumber d =>
          cases hn with
          | jNumber hn => exact hn
      | jBool b => trivial
      | jNull => trivial
      | arrayList items =>
          cases hs with
          | arrayList hs =>
              cases hn with
              | arrayList hn => exact fun o ho => ih (h o ho) (hs o ho) (hn o ho)
      | hashMap map =>
          cases hs with
          | hashMap hkeys hs =>
              cases hn with
              | hashMap hn =>
                  exact fun e he => ⟨hkeys e he, ih (h e he).2 (hs e he) (hn e he)⟩
      | jsonNode o a core =>
          cases hs with
          | jsonNode hs =>
              cases hn with
              | jsonNode hn => exact ih h hs hn

/-- The numbers of a tree that are finite and printed in range are read back. -/
theorem Nodes.readsNumber (hfmt : ∀ d, IsFinite dbl d → IsNumber (dbl.formatG d))
    {P : Bytes → Prop} {levels : ℕ} {t : Obj D}
    (h : Nodes (fun _ => True) (IsFinite dbl) levels t)
    (hs : AllStrings P t) (hn : AllNumbers (fun d => InRange dbl (dbl.formatG d)) t) :
    Nodes P (ReadsNumber dbl) levels t := by
  refine h.of_allStrings hs ?_
  have hfinite := h.allStrings.2
  clear h hs
  induction hn with
  | jString => exact .jString
  | jNumber hrange =>
      cases hfinite with
      | jNumber hd =>
          have hnumber := hfmt _ hd
          exact .jNumber ⟨startsNumber_of_isNumber hnumber, fun rest hrest =>
            (parseNumber_isNumber_iff hnumber hrest).mpr ⟨hrange, rfl, rfl⟩⟩
  | jBool => exact .jBool
  | jNull => exact .jNull
  | arrayList _ ih =>
      cases hfinite with
      | arrayList hfinite => exact .arrayList fun o ho => ih o ho (hfinite o ho)
  | hashMap _ ih =>
      cases hfinite with
      | hashMap hfinite => exact .hashMap fun e he => ih e he (hfinite e he)
  | jsonNode _ ih =>
      cases hfinite with
      | jsonNode hfinite => exact .jsonNode (ih hfinite)

theorem AllStrings.and {P Q : Bytes → Prop} {t : Obj D} (hp : AllStrings P t) (hq : AllStrings Q t) :
    AllStrings (fun s => P s ∧ Q s) t := by
  induction hp with
  | jString hs =>
      cases hq with
      | jString hs' => exact .jString ⟨hs, hs'⟩
  | jNumber => exact .jNumber
  | jBool => exact .jBool
  | jNull => exact .jNull
  | arrayList _ ih =>
      cases hq with
      | arrayList hq => exact .arrayList fun o ho => ih o ho (hq o ho)
  | hashMap hkeys _ ih =>
      cases hq with
      | hashMap hkeys' hq =>
          exact .hashMap (fun e he => ⟨hkeys e he, hkeys' e he⟩) fun e he => ih e he (hq e he)
  | jsonNode _ ih =>
      cases hq with
      | jsonNode hq => exact .jsonNode (ih hq)

/-- What a literal is read as has a literal that is not longer. -/
theorem Decodes.fitsInt {body str : Bytes} (h : Decodes body str) :
    FitsInt ((cstr str).flatMap escapeByte).length := by
  obtain ⟨rest, hscan, hfits, hdec⟩ := h.loops
  obtain ⟨str', hstr', hlen⟩ := (isBody_of_decodeLoop hdec hscan).reads body.length (le_refl _)
  obtain rfl : str = str' := by simpa [hdec] using hstr'
  have hcut : ((cstr str).flatMap escapeByte).length ≤ (str.flatMap escapeByte).length :=
    ((List.takeWhile_sublist _).flatMap escapeByte).length_le
  rw [fitsInt_natCast] at hfits ⊢
  omega

/-- The literals of a parsed tree are counted when it is read again. -/
theorem allStrings_countable {fuel depth : ℕ} {ptr rest : Bytes} {v : Obj D}
    (h : parseValue dbl fuel depth ptr = .ok (v, rest)) :
    AllStrings (fun s => FitsInt ((cstr s).flatMap escapeByte).length) v := by
  obtain ⟨bodies, -, -, hP⟩ := (parse_accounts fuel).1 _ _ _ _ h
  refine hP _ (fun body _ str hdec => ⟨hdec.fitsInt, ?_⟩) trivial
  rw [cstr, cstr, List.takeWhile_idem]
  exact hdec.fitsInt

/-! ### Printing and reading again -/

/-- `node_toString` on a node; the `core_data` of a parsed node is not `NULL`. -/
def nodeToString (dbl : Double D) : Obj D → Bytes
  | .jsonNode _ _ coreData => implStringify dbl coreData
  | _ => []

/-- **What is printed is accepted** exactly when every string and key of the tree, up to its first
NUL, is a text, and the printed form of every number is in range. -/
theorem parseJSON_nodeToString_iff
    (hfmt : ∀ d, IsFinite dbl d → IsNumber (dbl.formatG d)) {json : Bytes} {root : Obj D}
    (h : parseJSON dbl json = .ok root) :
    (∃ root', parseJSON dbl (nodeToString dbl root) = .ok root') ↔
      AllStrings (fun s => IsText (cstr s)) root ∧
        AllNumbers (fun d => InRange dbl (dbl.formatG d)) root := by
  simp only [parseJSON] at h
  split_ifs at h with hne
  split at h
  · exact absurd h (by simp)
  · exact absurd h (by simp)
  next parsed rest hparse =>
    split_ifs at h with hrest
    obtain rfl : root = .jsonNode (isHashmap parsed) (isArraylist parsed) parsed := by
      simpa using h.symm
    have hnodes := (nodes_of_parse _).1 _ _ _ _ hparse
    have hstart : ∀ d, IsFinite dbl d → StartsNumber dbl d :=
      fun d hd => startsNumber_of_isNumber (hfmt d hd)
    rw [nodeToString]
    constructor
    · rintro ⟨root', haccepted⟩
      obtain ⟨hcstr, hprinted⟩ := cstr_implStringify hstart hnodes
      simp only [parseJSON, hcstr, if_neg hprinted] at haccepted
      split at haccepted
      · exact absurd haccepted (by simp)
      · exact absurd haccepted (by simp)
      next parsed' rest' hparse' =>
        have hprint : implStringify dbl parsed =
            stringifyLevels dbl depthMarker (maxJsonDepth + 1) parsed ++ [] :=
          (List.append_nil _).symm
        rw [hprint] at hparse'
        have hall := (parseValue_printed hfmt hnodes rfl hparse').1.allStrings
        exact ⟨.jsonNode hall.1, .jsonNode hall.2⟩
    · rintro ⟨hstrings, hnumbers⟩
      cases hstrings with
      | jsonNode hstrings =>
          cases hnumbers with
          | jsonNode hnumbers =>
              have hliterals := hstrings.and (allStrings_countable hparse)
              exact ⟨_, parseJSON_stringifyLevels (hnodes.readsNumber hfmt hliterals hnumbers)⟩

/-- A single `double`, for closed examples: zero. -/
def zeroDouble : Double Unit where
  strtod _ := ((), false)
  isZero _ := true
  isinf _ := false
  isnan _ := false
  formatG _ := ascii ['0']

/-- An array of a zero and a literal with an escape. -/
theorem parseJSON_nodeToString_sample :
    ∃ root', parseJSON zeroDouble (nodeToString zeroDouble
      (.jsonNode false true (.arrayList [.jNumber (), .jString [0x0A]]))) = .ok root' := by
  have hfmt : ∀ d, IsFinite zeroDouble d → IsNumber (zeroDouble.formatG d) :=
    fun _ _ => ⟨[], [0x30], [], [], .inl rfl, .inl rfl, .inl rfl, .inl rfl, rfl⟩
  have hparse : parseJSON zeroDouble (ascii ['[', '0', ',', '"', '\\', 'n', '"', ']']) =
      .ok (.jsonNode false true (.arrayList [.jNumber (), .jString [0x0A]])) := rfl
  have htext : IsText (cstr [0x0A]) := by decide +kernel
  refine (parseJSON_nodeToString_iff hfmt hparse).mpr ⟨.jsonNode (.arrayList ?_),
    .jsonNode (.arrayList ?_)⟩
  · simp only [List.mem_cons, List.not_mem_nil, or_false, forall_eq_or_imp, forall_eq]
    exact ⟨.jNumber, .jString htext⟩
  · simp only [List.mem_cons, List.not_mem_nil, or_false, forall_eq_or_imp, forall_eq]
    exact ⟨.jNumber ⟨rfl, rfl⟩, .jString⟩

/-- A control character behind an escape: its text is accepted, and what is printed for it is
rejected. -/
theorem parseJSON_nodeToString_control :
    parseJSON zeroDouble (ascii ['"', '\\', 'u', '0', '0', '0', '1', '"']) =
        .ok (.jsonNode false false (.jString [0x01])) ∧
      ¬∃ root', parseJSON zeroDouble (nodeToString zeroDouble
        (.jsonNode false false (.jString [0x01]))) = .ok root' := by
  refine ⟨rfl, ?_⟩
  rintro ⟨root', h⟩
  have hrejected : ∃ msg, parseJSON zeroDouble (nodeToString zeroDouble
      (.jsonNode false false (.jString [0x01]))) = .error msg := ⟨_, rfl⟩
  obtain ⟨msg, hmsg⟩ := hrejected
  rw [hmsg] at h
  cases h

end Json
