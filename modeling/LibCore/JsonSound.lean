import LibCore.JsonGrammar
import LibCore.JsonParse

/-!
# Accepted Texts and the Grammar

`parse_JSON` accepts more than RFC 8259: `isspace` also takes a vertical tab and a form feed,
`strtod` reads hexadecimal numbers and a point behind a minus, and a backslash may stand in
front of any byte. Nothing else is wrong: an accepted text is a JSON text exactly when it passes
the scan of `strictFrom`, which looks for these four things only.

## Main results

* `parseNumber_isNumber`: an accepted token without an `x`, with a digit behind its minus, is a
  number of the grammar.
* `isChars_of_decodeLoop`: a literal without strange escapes has the characters of the grammar.
* `parse_derives`: what a call consumes is derived by the grammar.
* `jsonText_iff_strictFrom`: an accepted text is a JSON text exactly when it passes the scan.
-/

open CString Utf8

namespace Json

variable {D : Type} {dbl : Double D}

/-! ### Numbers -/

theorem drop_spanLen (p : UInt8 → Bool) (s : Bytes) : s.drop (spanLen p s) = s.dropWhile p := by
  calc s.drop (spanLen p s)
      = (s.takeWhile p ++ s.dropWhile p).drop (s.takeWhile p).length := by
        rw [List.takeWhile_append_dropWhile, spanLen]
    _ = s.dropWhile p := List.drop_left

/-- The exponent `strtod` takes, in front of the rest. -/
theorem exponent_shape (s : Bytes) :
    ∃ exp rest, s = exp ++ rest ∧ (exp = [] ∨ IsExp exp) ∧ exponentLen 0x65 s = exp.length := by
  have hletter : ∀ c : UInt8, tolower c = 0x65 → c = 0x65 ∨ c = 0x45 := by
    grind [tolower]
  rw [exponentLen]
  split
  · rename_i hword
    cases s with
    | nil => simp [startsWithWord] at hword
    | cons e s =>
        have he : e = 0x65 ∨ e = 0x45 := hletter e (by simpa [startsWithWord] using hword)
        -- the sign, or nothing, and the digits behind it
        obtain ⟨sign, r, rfl, hsign, hlen⟩ : ∃ sign r, s = sign ++ r ∧
            (sign = [] ∨ sign = [0x2B] ∨ sign = [0x2D]) ∧
            (if s.head?.any fun c => c = 0x2B || c = 0x2D then 1 else 0) = sign.length := by
          by_cases hs : (s.head?.any fun c => c = 0x2B || c = 0x2D) = true
          · cases s with
            | nil => simp at hs
            | cons c r =>
                refine ⟨[c], r, rfl, ?_, by rw [if_pos hs]; rfl⟩
                have hc : c = 0x2B ∨ c = 0x2D := by simpa using hs
                rcases hc with rfl | rfl
                · exact .inr (.inl rfl)
                · exact .inr (.inr rfl)
          · exact ⟨[], s, rfl, .inl rfl, by rw [if_neg hs]; rfl⟩
        simp only [List.drop_succ_cons, List.drop_zero, hlen, Nat.add_comm 1, List.drop_left]
        split
        · exact ⟨[], _, rfl, .inl rfl, rfl⟩
        · rename_i hdigits
          refine ⟨e :: (sign ++ r.takeWhile isdigit), r.dropWhile isdigit, ?_, .inr ?_, ?_⟩
          · rw [List.cons_append, List.append_assoc, List.takeWhile_append_dropWhile]
          · refine ⟨e, sign, _, he, hsign, ⟨?_, fun c hc => List.mem_takeWhile_imp hc⟩, rfl⟩
            intro hnil
            exact hdigits (by rw [spanLen, hnil]; rfl)
          · simp [spanLen]
            omega
  · exact ⟨[], s, rfl, .inl rfl, rfl⟩

/-- The number `strtod` takes from a text that starts with a digit. -/
theorem mantissa_shape {s : Bytes} (hs : s.head?.any isdigit = true) :
    ∃ int frac exp rest, s = int ++ (frac ++ (exp ++ rest)) ∧ IsDigits int ∧
      (frac = [] ∨ ∃ digits, frac = 0x2E :: digits ∧ ∀ c ∈ digits, isdigit c = true) ∧
      (exp = [] ∨ IsExp exp) ∧
      mantissaLen isdigit 0x65 s = (int ++ (frac ++ exp)).length := by
  have hint : IsDigits (s.takeWhile isdigit) := by
    refine ⟨?_, fun c hc => List.mem_takeWhile_imp hc⟩
    cases s with
    | nil => simp at hs
    | cons c s =>
        have hc : isdigit c = true := by simpa using hs
        simp [hc]
  have hwhole : spanLen isdigit s ≠ 0 := fun h => hint.1 (List.length_eq_zero_iff.mp h)
  simp only [mantissaLen, ← List.drop_drop, drop_spanLen]
  by_cases hp : (s.dropWhile isdigit).head? = some 0x2E
  · obtain ⟨r, hr⟩ : ∃ r, s.dropWhile isdigit = 0x2E :: r := by
      cases hd : s.dropWhile isdigit with
      | nil => simp [hd] at hp
      | cons c r => exact ⟨r, by simpa [hd] using hp⟩
    obtain ⟨exp, rest, hexp, hshape, hlen⟩ := exponent_shape (r.dropWhile isdigit)
    refine ⟨_, 0x2E :: r.takeWhile isdigit, exp, rest, ?_, hint,
      .inr ⟨_, rfl, fun c hc => List.mem_takeWhile_imp hc⟩, hshape, ?_⟩
    · rw [← hexp, List.cons_append, List.takeWhile_append_dropWhile, ← hr,
        List.takeWhile_append_dropWhile]
    · simp only [hr, List.head?_cons, if_true, List.drop_succ_cons, List.drop_zero, drop_spanLen]
      rw [if_neg (by omega), hlen]
      simp [spanLen]
      omega
  · obtain ⟨exp, rest, hexp, hshape, hlen⟩ := exponent_shape (s.dropWhile isdigit)
    refine ⟨_, [], exp, rest, ?_, hint, .inl rfl, hshape, ?_⟩
    · rw [List.nil_append, ← hexp, List.takeWhile_append_dropWhile]
    · simp only [hp, if_false, List.drop_zero, Nat.zero_ne_one]
      rw [if_neg (by omega), hlen]
      simp [spanLen]

/-- Only a hexadecimal number starts with a zero and an `x`. -/
theorem not_hex_of_strictFrom {s : Bytes} (h : strictFrom false s = true) :
    startsWithWord (ascii ['0', 'x']) s = false := by
  have hx : ∀ c : UInt8, tolower c = 0x78 → c = 0x78 ∨ c = 0x58 := by
    grind [tolower]
  rw [Bool.eq_false_iff]
  intro hword
  have hmap : (s.take 2).map tolower = [0x30, 0x78] := of_decide_eq_true hword
  cases s with
  | nil => simp at hmap
  | cons a s =>
      cases s with
      | nil => simp at hmap
      | cons b s =>
          simp only [List.take_succ_cons, List.map_cons, List.cons.injEq] at hmap
          have hb : b = 0x78 ∨ b = 0x58 := hx b hmap.2.1
          have ha : a ≠ quote := by
            rintro rfl
            exact absurd hmap.1 (by decide)
          have hstrict : strictFrom false (b :: s) = true := by
            rw [strictFrom, Bool.and_eq_true, decide_eq_false ha] at h
            exact h.2
          rw [strictFrom, Bool.and_eq_true] at hstrict
          rcases hb with rfl | rfl
          · exact absurd hstrict.1 (by simp [strictByte])
          · exact absurd hstrict.1 (by simp [strictByte])

/-- A text that starts with a digit is read as a decimal number, or as a hexadecimal one. -/
theorem subjectLen_of_digit {s : Bytes} (hs : s.head?.any isdigit = true)
    (hhex : startsWithWord (ascii ['0', 'x']) s = false) :
    subjectLen s = mantissaLen isdigit 0x65 s := by
  have hletter : ∀ c : UInt8, isdigit c = true →
      tolower c ≠ 'i'.toUInt8 ∧ tolower c ≠ 'n'.toUInt8 := by
    have hi : 'i'.toUInt8 = 0x69 := rfl
    have hn : 'n'.toUInt8 = 0x6E := rfl
    grind [tolower]
  cases s with
  | nil => simp at hs
  | cons c s =>
      have hc : isdigit c = true := by simpa using hs
      have hword : ∀ (w : Char) (ws : List Char), tolower c ≠ w.toUInt8 →
          ¬startsWithWord (ascii (w :: ws)) (c :: s) = true := by
        intro w ws hne h
        have hmap : ((c :: s).take (ascii (w :: ws)).length).map tolower = ascii (w :: ws) :=
          of_decide_eq_true h
        simp only [ascii, List.map_cons, List.length_cons, List.take_succ_cons,
          List.cons.injEq] at hmap
        exact hne hmap.1
      rw [subjectLen, if_neg (hword _ _ (hletter c hc).1), if_neg (hword _ _ (hletter c hc).1),
        if_neg (hword _ _ (hletter c hc).2), if_neg (by rw [hhex]; simp)]

theorem mantissaLen_pos {s : Bytes} (hs : s.head?.any isdigit = true) :
    mantissaLen isdigit 0x65 s ≠ 0 := by
  obtain ⟨int, frac, exp, rest, -, hint, -, -, hlen⟩ := mantissa_shape hs
  have := List.length_pos_of_ne_nil hint.1
  rw [hlen, List.length_append]
  omega

theorem head_ne_blank_of_digit {s : Bytes} (hs : s.head?.any isdigit = true) :
    spanLen isspace s = 0 ∧ (s.head?.any fun c => c = 0x2B || c = 0x2D) = false := by
  have hclass : ∀ c : UInt8, isdigit c = true →
      isspace c = false ∧ (c = 0x2B || c = 0x2D) = false := by
    grind
  cases s with
  | nil => simp at hs
  | cons c s =>
      obtain ⟨hsp, hsign⟩ := hclass c (by simpa using hs)
      exact ⟨by simp [spanLen, hsp], by simpa using hsign⟩

/-- What `strtod` takes from a text that starts with a digit. -/
theorem strtodLen_of_digit {s : Bytes} (hs : s.head?.any isdigit = true)
    (hhex : startsWithWord (ascii ['0', 'x']) s = false) :
    strtodLen s = mantissaLen isdigit 0x65 s := by
  obtain ⟨hblank, hsign⟩ := head_ne_blank_of_digit hs
  simp only [strtodLen, hblank, List.drop_zero, hsign, Nat.zero_add, Bool.false_eq_true, if_false,
    subjectLen_of_digit hs hhex, if_neg (mantissaLen_pos hs)]

/-- What `strtod` takes from a text that starts with a minus and a digit. -/
theorem strtodLen_minus {s : Bytes} (hs : s.head?.any isdigit = true)
    (hhex : startsWithWord (ascii ['0', 'x']) s = false) :
    strtodLen (0x2D :: s) = 1 + mantissaLen isdigit 0x65 s := by
  have hblank : spanLen isspace (0x2D :: s) = 0 := rfl
  have hsign : ((0x2D :: s).head?.any fun c => c = 0x2B || c = 0x2D) = true := rfl
  simp only [strtodLen, hblank, List.drop_zero, hsign, Nat.zero_add, if_true, List.drop_succ_cons,
    subjectLen_of_digit hs hhex, if_neg (mantissaLen_pos hs)]

theorem leadingZero_minus {s : Bytes} (hs : s.head?.any isdigit = true) :
    leadingZero (0x2D :: s) = leadingZero s := by
  have hminus : ¬s.head? = some 0x2D := by
    intro h
    rw [h] at hs
    exact absurd hs (by decide)
  simp only [leadingZero, List.head?_cons, if_true, List.drop_succ_cons, List.drop_zero,
    if_neg hminus]

/-- Digits without a superfluous zero are an `int`. -/
theorem isInt_of_isDigits {int r : Bytes} (h : IsDigits int)
    (hzero : leadingZero (int ++ r) = false) : IsInt int := by
  by_cases hhead : int.head? = some 0x30
  · left
    cases int with
    | nil => simp at hhead
    | cons c int =>
        obtain rfl : c = 0x30 := by simpa using hhead
        cases int with
        | nil => rfl
        | cons d int =>
            have hd : isdigit d = true := h.2 d (by simp)
            rw [leadingZero] at hzero
            simp [hd] at hzero
  · exact .inr ⟨h, hhead⟩

theorem dropWhile_ne_point {int r : Bytes} (h : IsDigits int) :
    (int ++ r).dropWhile (· ≠ 0x2E) = r.dropWhile (· ≠ 0x2E) := by
  have hpoint : ∀ c : UInt8, isdigit c = true → decide (c ≠ 0x2E) = true := by grind
  exact List.dropWhile_append_of_pos fun c hc => hpoint c (h.2 c hc)

/-- The part behind the point is a `frac`. -/
theorem isFrac_of_pointHasDigit {int digits exp : Bytes} (hint : IsDigits int)
    (hdigits : ∀ c ∈ digits, isdigit c = true) (hexp : exp = [] ∨ IsExp exp)
    (hpoint : pointHasDigit (int ++ (0x2E :: digits ++ exp)) = true) : IsFrac (0x2E :: digits) := by
  refine ⟨digits, ⟨?_, hdigits⟩, rfl⟩
  rintro rfl
  rw [pointHasDigit, dropWhile_ne_point hint] at hpoint
  rcases hexp with rfl | ⟨e, sign, ds, he, -, -, rfl⟩
  · exact absurd hpoint (by decide)
  · rcases he with rfl | rfl
    · exact absurd hpoint (by simp [isdigit])
    · exact absurd hpoint (by simp [isdigit])

/-- The unsigned part of an accepted token. -/
theorem unsigned_shape {s : Bytes} (hs : s.head?.any isdigit = true) (hzero : leadingZero s = false)
    (hpoint : pointHasDigit (s.take (mantissaLen isdigit 0x65 s)) = true) :
    ∃ int frac exp, IsInt int ∧ (frac = [] ∨ IsFrac frac) ∧ (exp = [] ∨ IsExp exp) ∧
      s.take (mantissaLen isdigit 0x65 s) = int ++ (frac ++ exp) := by
  obtain ⟨int, frac, exp, rest, heq, hint, hfrac, hexp, hlen⟩ := mantissa_shape hs
  have htake : s.take (mantissaLen isdigit 0x65 s) = int ++ (frac ++ exp) := by
    have hsplit : s = int ++ (frac ++ exp) ++ rest := by simp [heq]
    rw [hlen, hsplit, List.take_left]
  rw [heq] at hzero
  rw [htake] at hpoint
  refine ⟨int, frac, exp, isInt_of_isDigits hint hzero, ?_, hexp, htake⟩
  rcases hfrac with rfl | ⟨digits, rfl, hdigits⟩
  · exact .inl rfl
  · exact .inr (isFrac_of_pointHasDigit hint hdigits hexp hpoint)

/-- An accepted **number** without an `x`, with a digit behind its minus, is one of the grammar. -/
theorem parseNumber_isNumber {c : UInt8} {s rest : Bytes} {v : Obj D}
    (hc : (c = 0x2D || isdigit c) = true) (hstrict : strictFrom false (c :: s) = true)
    (h : parseNumber dbl (c :: s) = .ok (v, rest)) : ∃ t, c :: s = t ++ rest ∧ IsNumber t := by
  obtain ⟨⟨hzero, -, hpoint, -, -, -⟩, rfl, -⟩ := parseNumber_ok_iff.mp h
  refine ⟨(c :: s).take (strtodLen (c :: s)), (List.take_append_drop _ _).symm, ?_⟩
  rw [Bool.or_eq_true, decide_eq_true_eq] at hc
  rcases hc with rfl | hc
  · have hdigit : s.head?.any isdigit = true := by
      rw [strictFrom, Bool.and_eq_true, strictByte] at hstrict
      simpa using hstrict.1
    rw [strictFrom_minus hdigit] at hstrict
    rw [strtodLen_minus hdigit (not_hex_of_strictFrom hstrict), Nat.add_comm] at hpoint ⊢
    rw [leadingZero_minus hdigit] at hzero
    obtain ⟨int, frac, exp, hint, hfrac, hexp, heq⟩ := unsigned_shape hdigit hzero hpoint
    exact ⟨[0x2D], int, frac, exp, .inr rfl, hint, hfrac, hexp, congrArg (0x2D :: ·) heq⟩
  · have hdigit : (c :: s).head?.any isdigit = true := by simpa using hc
    rw [strtodLen_of_digit hdigit (not_hex_of_strictFrom hstrict)] at hpoint ⊢
    obtain ⟨int, frac, exp, hint, hfrac, hexp, heq⟩ := unsigned_shape hdigit hzero hpoint
    exact ⟨[], int, frac, exp, .inl rfl, hint, hfrac, hexp, heq⟩

/-! ### Literals -/

/-- The body of a literal as the first loop leaves it, with known escapes only. -/
def strictBody : Bytes → Bool
  | [] => true
  | c :: s =>
      if c = backslash then
        match s with
        | [] => false
        | d :: s => isEscape d && strictBody s
      else c ≠ quote && 0x20 ≤ c && strictBody s

/-- The scan inside a literal looks at its escapes. -/
theorem strictFrom_scanString {s body rest : Bytes} (h : scanString s = .ok (body, rest)) :
    strictFrom true s = (strictBody body && strictFrom false rest) := by
  fun_induction scanString s generalizing body rest with
  | case1 => exact absurd h reportError_ne_ok
  | case2 s =>
      simp only [Except.ok.injEq, Prod.mk.injEq] at h
      obtain ⟨rfl, rfl⟩ := h
      rw [strictFrom.eq_def]
      simp [strictBody]
  | case3 => exact absurd h reportError_ne_ok
  | case4 d s hq ih =>
      cases hs : scanString s with
      | error e => simp [hs, Except.map] at h
      | ok r =>
          obtain ⟨body', rest'⟩ := r
          simp only [hs, Except.map, Except.ok.injEq, Prod.mk.injEq] at h
          obtain ⟨rfl, rfl⟩ := h
          rw [strictFrom, if_neg hq, if_pos rfl, ih hs, strictBody, if_pos rfl, Bool.and_assoc]
  | case5 => exact absurd h reportError_ne_ok
  | case6 c s hq hb hctl ih =>
      cases hs : scanString s with
      | error e => simp [hs, Except.map] at h
      | ok r =>
          obtain ⟨body', rest'⟩ := r
          simp only [hs, Except.map, Except.ok.injEq, Prod.mk.injEq] at h
          obtain ⟨rfl, rfl⟩ := h
          have hge : 0x20 ≤ c := by grind
          rw [strictFrom.eq_def, strictBody.eq_def]
          simp [hq, hb, hge, ih hs]

theorem strictBody_append {p : Bytes} (h : ∀ c ∈ p, c ≠ quote ∧ c ≠ backslash ∧ 0x20 ≤ c)
    (s : Bytes) : strictBody (p ++ s) = strictBody s := by
  induction p with
  | nil => rfl
  | cons c p ih =>
      obtain ⟨hq, hb, hge⟩ := h c (by simp)
      rw [List.cons_append, strictBody.eq_def]
      simp [hq, hb, hge, ih fun x hx => h x (by simp [hx])]

/-- A Unicode escape is four digits, or two times four with another escape between them. -/
theorem decodeUnicode_shape {src src' out : Bytes} (h : decodeUnicode src = .ok (out, src')) :
    ∃ digits, digits.length = 4 ∧ (∀ c ∈ digits, isxdigit c = true) ∧
      (src = digits ++ src' ∨ ∃ digits', digits'.length = 4 ∧ (∀ c ∈ digits', isxdigit c = true) ∧
        src = digits ++ backslash :: 0x75 :: (digits' ++ src')) := by
  simp only [decodeUnicode] at h
  cases h1 : hexLoop 4 0 src with
  | error e => simp [h1] at h
  | ok r =>
      obtain ⟨cp, src₁⟩ := r
      obtain ⟨digits, rfl, hlen, hhex, -⟩ := hexLoop_ok h1
      refine ⟨digits, hlen, hhex, ?_⟩
      simp only [h1] at h
      split at h
      · split at h
        · rename_i hpair
          cases h2 : hexLoop 4 0 (src₁.drop 2) with
          | error e => simp [h2] at h
          | ok r =>
              obtain ⟨cp2, src₂⟩ := r
              obtain ⟨digits₂, hsrc, hlen₂, hhex₂, -⟩ := hexLoop_ok h2
              simp only [h2] at h
              split at h
              · simp only [Except.ok.injEq, Prod.mk.injEq] at h
                obtain ⟨-, rfl⟩ := h
                refine .inr ⟨digits₂, hlen₂, hhex₂, ?_⟩
                rw [← List.take_append_drop 2 src₁, hpair.2, hsrc]
                rfl
              · exact absurd h reportError_ne_ok
        · exact absurd h reportError_ne_ok
      · split at h
        · exact absurd h reportError_ne_ok
        · simp only [Except.ok.injEq, Prod.mk.injEq] at h
          obtain ⟨-, rfl⟩ := h
          exact .inl rfl

/-- A Unicode escape in front of characters of the grammar. -/
theorem isChars_unicode {src src' out : Bytes} (h : decodeUnicode src = .ok (out, src'))
    (hstrict : strictBody src = true) :
    strictBody src' = true ∧ (IsChars src' → IsChars (backslash :: 0x75 :: src)) := by
  obtain ⟨digits, hlen, hhex, rfl | ⟨digits', hlen', hhex', rfl⟩⟩ := decodeUnicode_shape h
  · rw [strictBody_append fun c hc => plain_of_isxdigit (hhex c hc)] at hstrict
    exact ⟨hstrict, fun hchars => .unicode hlen hhex hchars⟩
  · rw [strictBody_append fun c hc => plain_of_isxdigit (hhex c hc), strictBody, if_pos rfl,
      Bool.and_eq_true, strictBody_append fun c hc => plain_of_isxdigit (hhex' c hc)] at hstrict
    exact ⟨hstrict.2, fun hchars => .unicode hlen hhex (.unicode hlen' hhex' hchars)⟩

/-- One round of the second loop reads one character of the grammar. -/
theorem isChars_decodeStep {c : UInt8} {src src' out : Bytes}
    (h : decodeStep (c :: src) = .ok (out, src')) (hstrict : strictBody (c :: src) = true) :
    strictBody src' = true ∧ (IsChars src' → IsChars (c :: src)) := by
  rw [decodeStep.eq_def] at h
  rw [strictBody.eq_def] at hstrict
  by_cases hc : c = backslash
  · subst hc
    cases src with
    | nil => simp at hstrict
    | cons d src =>
        simp only [if_true, Bool.and_eq_true] at h hstrict
        by_cases hu : d = 0x75
        · subst hu
          rw [if_pos rfl] at h
          exact isChars_unicode h hstrict.2
        · rw [if_neg hu] at h
          simp only [Except.ok.injEq, Prod.mk.injEq] at h
          obtain ⟨-, rfl⟩ := h
          have hd : d ∈ escapeLetters := by simpa [isEscape, hu] using hstrict.1
          exact ⟨hstrict.2, fun hchars => .escape hd hchars⟩
  · simp only [if_neg hc, Bool.and_eq_true, decide_eq_true_eq] at h hstrict
    obtain ⟨⟨hq, hge⟩, hsrc⟩ := hstrict
    by_cases hhigh : 0x80 ≤ c
    · rw [if_pos hhigh] at h
      obtain ⟨hchar, heq⟩ := decodeSequence_ok h
      obtain ⟨a, t, rfl⟩ := List.exists_cons_of_ne_nil hchar.ne_nil
      obtain ⟨rfl, rfl⟩ : c = a ∧ src = t ++ src' := List.cons.inj heq
      have hplain : ∀ b ∈ c :: t, b ≠ quote ∧ b ≠ backslash ∧ 0x20 ≤ b :=
        fun b hb => plain_of_high (hchar.high hhigh b hb)
      rw [strictBody_append fun b hb => hplain b (by simp [hb])] at hsrc
      refine ⟨hsrc, fun hchars => ?_⟩
      rw [heq]
      exact .unescaped hchar (fun b hb => ⟨(hplain b hb).2.2, (hplain b hb).1, (hplain b hb).2.1⟩)
        hchars
    · rw [if_neg hhigh] at h
      simp only [Except.ok.injEq, Prod.mk.injEq] at h
      obtain ⟨-, rfl⟩ := h
      have hchar : IsChar [c] := by
        simp only [IsChar]
        grind
      exact ⟨hsrc, fun hchars => .unescaped (c := [c]) hchar (by simp [hge, hq, hc]) hchars⟩

/-- A literal without strange **escapes** has the characters of the grammar. -/
theorem isChars_of_decodeLoop {fuel : ℕ} {body str : Bytes} (h : decodeLoop fuel body = .ok str)
    (hstrict : strictBody body = true) : IsChars body := by
  induction fuel generalizing body str with
  | zero =>
      cases body with
      | nil => exact .nil
      | cons c src => simp [decodeLoop] at h
  | succ fuel ih =>
      cases body with
      | nil => exact .nil
      | cons c src =>
          rw [decodeLoop] at h
          cases hs : decodeStep (c :: src) with
          | error e => simp [hs] at h
          | ok r =>
              obtain ⟨out, src'⟩ := r
              obtain ⟨hsrc, hchars⟩ := isChars_decodeStep hs hstrict
              simp only [hs] at h
              cases hl : decodeLoop fuel src' with
              | error e => simp [hl, Except.map] at h
              | ok rest => exact hchars (ih hl hsrc)

/-- A strict literal is a `string`, and the scan goes on behind it. -/
theorem parseStringRaw_isString {s str rest : Bytes} (h : parseStringRaw s = .ok (str, rest))
    (hstrict : strictFrom false (quote :: s) = true) :
    strictFrom false rest = true ∧ ∃ t, IsString t ∧ quote :: s = t ++ rest := by
  obtain ⟨body, hscan, -, hdec⟩ := parseStringRaw_ok_iff.mp h
  have hopen : strictFrom true s = true := hstrict
  rw [strictFrom_scanString hscan, Bool.and_eq_true] at hopen
  refine ⟨hopen.2, quote :: (body ++ [quote]), ⟨body, isChars_of_decodeLoop hdec hopen.1, rfl⟩, ?_⟩
  rw [scanString_ok hscan]
  simp

/-! ### Values -/

/-- Blanks that pass the scan are blanks of the grammar. -/
theorem skipWs_isWs {s : Bytes} (h : strictFrom false s = true) :
    strictFrom false (skipWs s) = true ∧ ∃ ws, IsWs ws ∧ s = ws ++ skipWs s := by
  have hblank : ∀ c : UInt8, isspace c = true → c ≠ 0x0B → c ≠ 0x0C →
      c = 0x20 ∨ c = 0x09 ∨ c = 0x0A ∨ c = 0x0D := by
    grind
  induction s with
  | nil => exact ⟨h, [], by simp [IsWs], rfl⟩
  | cons c s ih =>
      by_cases hc : isspace c = true
      · have hskip : skipWs (c :: s) = skipWs s := by simp [skipWs, hc]
        rw [strictFrom, Bool.and_eq_true, strictByte] at h
        simp only [Bool.and_eq_true, decide_eq_true_eq] at h
        obtain ⟨⟨⟨⟨⟨h0B, h0C⟩, -⟩, -⟩, -⟩, hs⟩ := h
        have hws := hblank c hc h0B h0C
        have hquote : decide (c = quote) = false := by
          rcases hws with rfl | rfl | rfl | rfl <;> decide
        rw [hquote] at hs
        obtain ⟨hrest, ws, hws', heq⟩ := ih hs
        rw [hskip]
        refine ⟨hrest, c :: ws, List.forall_mem_cons.mpr ⟨hws, hws'⟩, ?_⟩
        rw [List.cons_append, ← heq]
      · have hskip : skipWs (c :: s) = c :: s := by simp [skipWs, hc]
        rw [hskip]
        exact ⟨h, [], by simp [IsWs], rfl⟩

theorem strictFrom_tail {c : UInt8} (hc : isNeutral c = true) {s s' : Bytes}
    (h : strictFrom false s = true) (hs : skipWs s = c :: s') : strictFrom false s' = true := by
  obtain ⟨hskip, -⟩ := skipWs_isWs h
  rwa [hs, strictFrom_neutral hc] at hskip

/-- A list of the grammar up to its closing bracket, with blanks around it. -/
def OpenList (sym : Symbol) (closing : UInt8) (ptr rest : Bytes) : Prop :=
  ∃ a m b, IsWs a ∧ Derives sym m ∧ IsWs b ∧ ptr = a ++ (m ++ (b ++ closing :: rest))

/-- What a loop of the parser reads: the closing bracket, or a list. -/
def ListBody (sym : Symbol) (closing : UInt8) (ptr rest : Bytes) : Prop :=
  skipWs ptr = closing :: rest ∨
    ((skipWs ptr).head? ≠ some closing ∧ OpenList sym closing ptr rest)

theorem Continues.strictFrom {closing : UInt8} {s next : Bytes} (hn : Continues closing s next)
    (h : Json.strictFrom false s = true) : Json.strictFrom false next = true := by
  rcases hn with ⟨s', hs, rfl⟩ | ⟨s', hs, rfl⟩
  · exact (skipWs_isWs (strictFrom_tail rfl h hs)).1
  · rw [← hs]
    exact (skipWs_isWs h).1

/-- An item in front of what the loop reads after it: the item is the last one, or a comma and
more items follow. -/
theorem openList_cons {sym : Symbol} {closing : UInt8} {a m s next rest : Bytes}
    (hclosing : isspace closing = false) (hs : strictFrom false s = true)
    (hn : Continues closing s next) (ht : NoTrailing closing s next)
    (hbody : ListBody sym closing next rest) (ha : IsWs a) (hlast : Derives sym m)
    (hmore : ∀ b ms, Structural comma b → Derives sym ms → Derives sym (m ++ (b ++ ms))) :
    OpenList sym closing (a ++ (m ++ s)) rest := by
  obtain ⟨hstrict, b, hb, heq⟩ := skipWs_isWs hs
  rcases hn with ⟨s', hw, rfl⟩ | ⟨s', hw, rfl⟩
  · obtain ⟨-, b', hb', heq'⟩ := skipWs_isWs (strictFrom_tail rfl hs hw)
    have hhead := ht s' hw
    rcases hbody with hclose | ⟨-, c, ms, d, hc, hms, hd, hnext⟩
    · rw [skipWs_skipWs] at hclose
      exact absurd (congrArg List.head? hclose) hhead
    · refine ⟨a, m ++ ((b ++ comma :: (b' ++ c)) ++ ms), d, ha, hmore _ _ ?_ hms, hd, ?_⟩
      · refine ⟨b, b' ++ c, hb, ?_, rfl⟩
        exact fun x hx => (List.mem_append.mp hx).elim (hb' x) (hc x)
      · rw [heq, hw, heq', hnext]
        simp
  · have hskip : skipWs (closing :: s') = closing :: s' := by simp [skipWs, hclosing]
    rcases hbody with hclose | ⟨hhead, -⟩
    · rw [hskip, List.cons.injEq] at hclose
      refine ⟨a, m, b, ha, hlast, hb, ?_⟩
      rw [heq, hw, hclose.2]
    · rw [hskip] at hhead
      exact absurd rfl hhead

/-- What a loop reads, with the opening bracket in front of it, is a value. -/
theorem ListBody.derives {sym : Symbol} {opening closing : UInt8} {s rest : Bytes}
    (h : ListBody sym closing s rest) (hs : strictFrom false s = true)
    (hempty : ∀ a b, Structural opening a → Structural closing b → Derives .value (a ++ b))
    (hlist : ∀ a m b, Structural opening a → Derives sym m → Structural closing b →
      Derives .value (a ++ (m ++ b))) :
    ∃ t, Derives .value t ∧ opening :: s = t ++ rest := by
  have hnil : IsWs [] := by simp [IsWs]
  rcases h with hclose | ⟨-, a, m, b, ha, hm, hb, rfl⟩
  · obtain ⟨-, ws, hws, heq⟩ := skipWs_isWs hs
    refine ⟨[opening] ++ (ws ++ [closing]), hempty _ _ ⟨[], [], hnil, hnil, rfl⟩
      ⟨ws, [], hws, hnil, rfl⟩, ?_⟩
    rw [heq, hclose]
    simp
  · refine ⟨(opening :: a) ++ (m ++ (b ++ [closing])), hlist _ _ _ ⟨[], a, hnil, ha, rfl⟩ hm
      ⟨b, [], hb, hnil, rfl⟩, ?_⟩
    simp

/-- What a call **consumes** is derived by the grammar, by induction on the fuel. -/
theorem parse_derives (fuel : ℕ) :
    (∀ depth ptr (v : Obj D) rest, parseValue dbl fuel depth ptr = .ok (v, rest) →
        strictFrom false ptr = true → strictFrom false rest = true ∧
          ∃ a t, IsWs a ∧ Derives .value t ∧ ptr = a ++ (t ++ rest)) ∧
      (∀ depth map ptr (v : Obj D) rest, parseMembers dbl fuel depth map ptr = .ok (v, rest) →
        strictFrom false ptr = true →
          strictFrom false rest = true ∧ ListBody .members 0x7D ptr rest) ∧
      ∀ depth list ptr (v : Obj D) rest, parseElements dbl fuel depth list ptr = .ok (v, rest) →
        strictFrom false ptr = true →
          strictFrom false rest = true ∧ ListBody .elements 0x5D ptr rest := by
  induction fuel with
  | zero =>
      refine ⟨?_, ?_, ?_⟩
      · intro depth ptr v rest h
        simp [parseValue] at h
      · intro depth map ptr v rest h
        simp [parseMembers] at h
      · intro depth list ptr v rest h
        simp [parseElements] at h
  | succ fuel ih =>
      obtain ⟨ihv, ihm, ihe⟩ := ih
      refine ⟨?_, ?_, ?_⟩
      · intro depth ptr v rest h hstrict
        obtain ⟨-, c, s, hw, hcases⟩ := parseValue_ok h
        obtain ⟨hs, a, ha, heq⟩ := skipWs_isWs hstrict
        rw [hw] at hs heq
        -- it is enough to derive what stands behind the blanks
        suffices hvalue : strictFrom false rest = true ∧
            ∃ t, Derives .value t ∧ c :: s = t ++ rest by
          obtain ⟨hrest, t, ht, hsplit⟩ := hvalue
          exact ⟨hrest, a, t, ha, ht, by rw [heq, hsplit]⟩
        rcases hcases with ⟨rfl, str, hstr, rfl⟩ | ⟨hc, hn⟩ | ⟨rfl, hm⟩ | ⟨rfl, he⟩ | ⟨-, hword⟩
        · obtain ⟨hrest, t, ht, hsplit⟩ := parseStringRaw_isString hstr hs
          exact ⟨hrest, t, .string ht, hsplit⟩
        · obtain ⟨t, hsplit, ht⟩ := parseNumber_isNumber hc hs hn
          rw [hsplit, strictFrom_number ht] at hs
          exact ⟨hs, t, .number ht, hsplit⟩
        · rw [strictFrom_neutral rfl] at hs
          obtain ⟨hrest, hbody⟩ := ihm _ _ _ _ _ hm hs
          exact ⟨hrest, hbody.derives hs (fun _ _ => .emptyObject) fun _ _ _ => .object⟩
        · rw [strictFrom_neutral rfl] at hs
          obtain ⟨hrest, hbody⟩ := ihe _ _ _ _ _ he hs
          exact ⟨hrest, hbody.derives hs (fun _ _ => .emptyArray) fun _ _ _ => .array⟩
        · rcases parseWord_ok hword with ⟨-, hr⟩ | ⟨-, hr⟩ | ⟨-, hr⟩
          · have hvalue : Derives .value (boolText true) := .true
            rw [hr, strictFrom_derives hvalue] at hs
            exact ⟨hs, _, hvalue, hr⟩
          · have hvalue : Derives .value (boolText false) := .false
            rw [hr, strictFrom_derives hvalue] at hs
            exact ⟨hs, _, hvalue, hr⟩
          · have hvalue : Derives .value nullText := .null
            rw [hr, strictFrom_derives hvalue] at hs
            exact ⟨hs, _, hvalue, hr⟩
      · intro depth map ptr v rest h hstrict
        obtain ⟨hs, a, ha, heq⟩ := skipWs_isWs hstrict
        rcases parseMembers_ok h with ⟨hw, -⟩ |
          ⟨s, key, s₁, s₂, val, s₃, next, hw, hstr, hw₁, hv, ⟨hn, ht⟩, hm⟩
        · exact ⟨strictFrom_tail rfl hstrict hw, .inl hw⟩
        · -- key, colon and value are a member, and the loop goes on behind it
          rw [hw] at hs heq
          obtain ⟨hs₁, k, hk, hsplit⟩ := parseStringRaw_isString hstr hs
          obtain ⟨-, b, hb, heq₁⟩ := skipWs_isWs hs₁
          have hs₂ := strictFrom_tail rfl hs₁ hw₁
          obtain ⟨hs₃, c, t, hc, hvalue, heq₂⟩ := ihv _ _ _ _ hv hs₂
          have hmember : Derives .member (k ++ ((b ++ 0x3A :: c) ++ t)) :=
            .member hk ⟨b, c, hb, hc, rfl⟩ hvalue
          obtain ⟨hrest, hbody⟩ := ihm _ _ _ _ _ hm (hn.strictFrom hs₃)
          have hopen := openList_cons (by decide) hs₃ hn ht hbody ha (.lastMember hmember)
            fun _ _ => .moreMembers hmember
          have hquote : quote ≠ 0x7D := by decide
          refine ⟨hrest, .inr ⟨by simp [hw, hquote], ?_⟩⟩
          rw [heq, hsplit, heq₁, hw₁, heq₂]
          simpa using hopen
      · intro depth list ptr v rest h hstrict
        obtain ⟨hs, a, ha, heq⟩ := skipWs_isWs hstrict
        rcases parseElements_ok h with ⟨hw, -⟩ | ⟨val, s, next, hhead, hv, ⟨hn, ht⟩, he⟩
        · exact ⟨strictFrom_tail rfl hstrict hw, .inl hw⟩
        · obtain ⟨hs₁, b, t, hb, hvalue, heq₁⟩ := ihv _ _ _ _ hv hs
          obtain ⟨hrest, hbody⟩ := ihe _ _ _ _ _ he (hn.strictFrom hs₁)
          have hab : IsWs (a ++ b) := fun x hx => (List.mem_append.mp hx).elim (ha x) (hb x)
          have hopen := openList_cons (by decide) hs₁ hn ht hbody hab (.lastElement hvalue)
            fun _ _ => .moreElements hvalue
          refine ⟨hrest, .inr ⟨hhead, ?_⟩⟩
          rw [heq, heq₁, ← List.append_assoc]
          exact hopen

/-- An accepted text is a **JSON text** exactly when it passes the scan. -/
theorem jsonText_iff_strictFrom {json : Bytes} {root : Obj D} (h : parseJSON dbl json = .ok root) :
    JsonText (cstr json) ↔ strictFrom false (cstr json) = true := by
  refine ⟨strictFrom_of_jsonText, fun hstrict => ?_⟩
  simp only [parseJSON] at h
  split_ifs at h with hne
  split at h
  · exact absurd h (by simp)
  · exact absurd h (by simp)
  next parsed rest hparse =>
    split_ifs at h with hrest
    obtain ⟨hstrict', a, t, ha, ht, heq⟩ := (parse_derives _).1 _ _ _ _ hparse hstrict
    obtain ⟨-, b, hb, heq'⟩ := skipWs_isWs hstrict'
    rw [not_not.mp hrest, List.append_nil] at heq'
    refine ⟨a, t, b, ha, ht, hb, ?_⟩
    rw [heq, heq']

/-- A text with blanks, an array, a number, a literal and an escape. -/
theorem jsonText_iff_strictFrom_sample :
    JsonText (ascii [' ', '[', '1', ',', '"', '\\', 'n', '"', ' ', ']']) := by
  have hparse : parseJSON natDouble (ascii [' ', '[', '1', ',', '"', '\\', 'n', '"', ' ', ']']) =
      .ok (.jsonNode false true (.arrayList [.jNumber 1, .jString [0x0A]])) := rfl
  exact (jsonText_iff_strictFrom hparse).mpr rfl

/-- A backslash in front of a `q`: the text is accepted, and it is no JSON text. -/
theorem parseJSON_unknown_escape :
    parseJSON natDouble (ascii ['"', '\\', 'q', '"']) =
        .ok (.jsonNode false false (.jString [0x71])) ∧
      ¬JsonText (cstr (ascii ['"', '\\', 'q', '"'])) := by
  refine ⟨rfl, fun h => ?_⟩
  exact absurd (strictFrom_of_jsonText h) (by decide)

end Json
