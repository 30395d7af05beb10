import LibCore.JsonPrint

/-!
# What a Text Starts With

`parse_value` reads a value off the head of a text and leaves alone what stands behind it. Its language is
given here rule by rule, each phrase with the text behind it. It is wider than JSON: blanks are those of
`isspace`, a backslash may stand in front of any byte, and a number is what `strtod` takes, as far as the
checks of `parse_number` let it through.

## Main definitions

* `IsBody`: the bodies of literals.
* `LiteralAt`, `NumberAt`, `WordAt`: the tokens a text starts with.
* `Starts`: the rules for values and for the loops of objects and arrays.
* `ReadsBody`: a body that is read, and not longer when it is printed again.

## Main results

* `IsBody.reads`: every body of a literal is one.
* `parseStringRaw_iff_literalAt`: the literals that are read.
* `parseValue_iff_starts`: the values that are read.
-/

open CString Utf8

namespace Json

variable {D : Type} {dbl : Double D}

/-! ### Tokens -/

/-- The value of hexadecimal digits. -/
def hexNumber (digits : Bytes) : ℕ := digits.foldl (fun n d => n * 16 + (hexDigit d).toNat) 0

/-- The four digits of a Unicode escape. -/
def IsHex4 (digits : Bytes) : Prop := digits.length = 4 ∧ ∀ c ∈ digits, isxdigit c = true

/-- The body of a literal: characters of UTF-8, and escapes. -/
inductive IsBody : Bytes → Prop
  | nil : IsBody []
  | char {c s : Bytes} : IsChar c → (∀ b ∈ c, b ≠ quote ∧ b ≠ backslash ∧ 0x20 ≤ b) → IsBody s →
      IsBody (c ++ s)
  | escape {d : UInt8} {s : Bytes} : d ≠ 0x75 → IsBody s → IsBody (backslash :: d :: s)
  | unicode {digits s : Bytes} : IsHex4 digits → ¬(0xD800 ≤ hexNumber digits ∧ hexNumber digits ≤ 0xDFFF) →
      IsBody s → IsBody (backslash :: 0x75 :: (digits ++ s))
  | pair {high low s : Bytes} : IsHex4 high → 0xD800 ≤ hexNumber high ∧ hexNumber high ≤ 0xDBFF →
      IsHex4 low → 0xDC00 ≤ hexNumber low ∧ hexNumber low ≤ 0xDFFF → IsBody s →
      IsBody (backslash :: 0x75 :: (high ++ backslash :: 0x75 :: (low ++ s)))

/-- Behind an opening quote: a body that an `int` counts, and the closing quote. -/
def LiteralAt (s rest : Bytes) : Prop :=
  ∃ body, IsBody body ∧ FitsInt body.length ∧ s = body ++ quote :: rest

/-- A number in front of a boundary: what `strtod` consumes passes the checks. -/
def NumberAt (dbl : Double D) (ptr rest : Bytes) : Prop :=
  ∃ token, 0 < strtodLen ptr ∧ token = ptr.take (strtodLen ptr) ∧ ptr = token ++ rest ∧
    leadingZero ptr = false ∧ pointHasDigit token = true ∧ danglingExponent token = false ∧
    InRange dbl token ∧ isValidBoundary rest = true

/-- A word in front of a boundary. -/
def WordAt (ptr rest : Bytes) : Prop :=
  ∃ word ∈ [boolText true, boolText false, nullText], ptr = word ++ rest ∧ isValidBoundary rest = true

/-! ### Rules -/

/-- The rules that call each other: a value, and what is left of an object and of an array. -/
inductive Phrase
  | value
  | members
  | elements

/-- A text starts with a phrase, at a depth, and the rest stands behind it. -/
inductive Starts (dbl : Double D) : Phrase → ℕ → Bytes → Bytes → Prop
  | string {depth : ℕ} {ptr s rest : Bytes} : depth ≤ maxJsonDepth → skipWs ptr = quote :: s →
      LiteralAt s rest → Starts dbl .value depth ptr rest
  | number {depth : ℕ} {ptr s rest : Bytes} {c : UInt8} : depth ≤ maxJsonDepth → skipWs ptr = c :: s →
      (c = 0x2D || isdigit c) = true → NumberAt dbl (c :: s) rest → Starts dbl .value depth ptr rest
  | word {depth : ℕ} {ptr rest : Bytes} : depth ≤ maxJsonDepth → WordAt (skipWs ptr) rest →
      Starts dbl .value depth ptr rest
  | object {depth : ℕ} {ptr s rest : Bytes} : depth ≤ maxJsonDepth → skipWs ptr = 0x7B :: s →
      Starts dbl .members (depth + 1) s rest → Starts dbl .value depth ptr rest
  | array {depth : ℕ} {ptr s rest : Bytes} : depth ≤ maxJsonDepth → skipWs ptr = 0x5B :: s →
      Starts dbl .elements (depth + 1) s rest → Starts dbl .value depth ptr rest
  | closeObject {depth : ℕ} {ptr rest : Bytes} : skipWs ptr = 0x7D :: rest → Starts dbl .members depth ptr rest
  | member {depth : ℕ} {ptr s s₁ s₂ s₃ next rest : Bytes} : skipWs ptr = quote :: s → LiteralAt s s₁ →
      skipWs s₁ = 0x3A :: s₂ → Starts dbl .value depth s₂ s₃ → Continues 0x7D s₃ next →
      NoTrailing 0x7D s₃ next → Starts dbl .members depth next rest → Starts dbl .members depth ptr rest
  | closeArray {depth : ℕ} {ptr rest : Bytes} : skipWs ptr = 0x5D :: rest → Starts dbl .elements depth ptr rest
  | element {depth : ℕ} {ptr s next rest : Bytes} : (skipWs ptr).head? ≠ some 0x5D →
      Starts dbl .value depth (skipWs ptr) s → Continues 0x5D s next → NoTrailing 0x5D s next →
      Starts dbl .elements depth next rest → Starts dbl .elements depth ptr rest

/-! ### Literals -/

theorem hexLoop_append {digits : Bytes} (h : ∀ c ∈ digits, isxdigit c = true) (cp : ℕ) (src : Bytes) :
    hexLoop digits.length cp (digits ++ src) =
      .ok (digits.foldl (fun n d => n * 16 + (hexDigit d).toNat) cp, src) := by
  induction digits generalizing cp with
  | nil => rfl
  | cons c digits ih =>
      obtain ⟨hc, hdigits⟩ := List.forall_mem_cons.mp h
      rw [List.length_cons, List.cons_append, hexLoop, hexToInt, if_pos hc, List.foldl_cons]
      exact ih hdigits _

theorem IsHex4.hexLoop_eq {digits : Bytes} (h : IsHex4 digits) (src : Bytes) :
    hexLoop 4 0 (digits ++ src) = .ok (hexNumber digits, src) := by
  rw [← h.1]
  exact hexLoop_append h.2 0 src

theorem hexLoop_four {src src' : Bytes} {cp : ℕ} (h : hexLoop 4 0 src = .ok (cp, src')) :
    ∃ digits, IsHex4 digits ∧ hexNumber digits = cp ∧ src = digits ++ src' := by
  obtain ⟨digits, rfl, hlen, hhex, -⟩ := hexLoop_ok h
  rw [IsHex4.hexLoop_eq ⟨hlen, hhex⟩, Except.ok.injEq, Prod.mk.injEq] at h
  exact ⟨digits, ⟨hlen, hhex⟩, h.1, rfl⟩

/-- Digits are passed over. -/
theorem passes_of_plain {s : Bytes} (h : ∀ b ∈ s, b ≠ quote ∧ b ≠ backslash ∧ 0x20 ≤ b) : Passes s := by
  induction s with
  | nil =>
      intro rest
      cases hscan : scanString rest <;> simp [hscan, Except.map]
  | cons b s ih =>
      obtain ⟨⟨hq, hb, hctl⟩, hs⟩ := List.forall_mem_cons.mp h
      exact (passes_plain hq hb (by grind)).append (ih hs)

theorem IsHex4.passes {digits : Bytes} (h : IsHex4 digits) : Passes digits :=
  passes_of_plain fun c hc => plain_of_isxdigit (h.2 c hc)

theorem IsBody.passes {body : Bytes} (h : IsBody body) : Passes body := by
  induction h with
  | nil => exact passes_of_plain (by simp)
  | char _ hplain _ ih => exact (passes_of_plain hplain).append ih
  | escape _ _ ih => exact (passes_backslash _).append ih
  | unicode hdigits _ _ ih => exact (passes_backslash _).append (hdigits.passes.append ih)
  | pair hhigh _ hlow _ _ ih =>
      exact (passes_backslash _).append (hhigh.passes.append ((passes_backslash _).append (hlow.passes.append ih)))

theorem length_encodeUtf8_le (cp : ℕ) :
    (encodeUtf8 cp).length ≤ 4 ∧ (cp ≤ 0xFFFF → (encodeUtf8 cp).length ≤ 3) := by
  simp only [encodeUtf8]
  split_ifs <;> simp_all

theorem IsHex4.hexNumber_le {digits : Bytes} (h : IsHex4 digits) : hexNumber digits ≤ 0xFFFF := by
  obtain ⟨-, -, -, -, hlt⟩ := hexLoop_ok (h.hexLoop_eq [])
  omega

theorem decodeUnicode_unicode {digits : Bytes} (h : IsHex4 digits)
    (hscalar : ¬(0xD800 ≤ hexNumber digits ∧ hexNumber digits ≤ 0xDFFF)) (src : Bytes) :
    ∃ out, decodeUnicode (digits ++ src) = .ok (out, src) ∧ out.length ≤ 3 := by
  simp only [decodeUnicode, h.hexLoop_eq]
  rw [if_neg (by omega), if_neg (by omega)]
  exact ⟨_, rfl, (length_encodeUtf8_le _).2 h.hexNumber_le⟩

theorem decodeUnicode_pair {high low : Bytes} (hhigh : IsHex4 high)
    (hh : 0xD800 ≤ hexNumber high ∧ hexNumber high ≤ 0xDBFF) (hlow : IsHex4 low)
    (hl : 0xDC00 ≤ hexNumber low ∧ hexNumber low ≤ 0xDFFF) (src : Bytes) :
    ∃ out, decodeUnicode (high ++ backslash :: 0x75 :: (low ++ src)) = .ok (out, src) ∧ out.length ≤ 4 := by
  have hlen : (backslash :: 0x75 :: (low ++ src)).length > 5 := by
    simp [hlow.1]
  simp only [decodeUnicode, hhigh.hexLoop_eq]
  rw [if_pos hh, if_pos ⟨hlen, rfl⟩]
  simp only [List.drop_succ_cons, List.drop_zero, hlow.hexLoop_eq]
  rw [if_pos hl]
  exact ⟨_, rfl, (length_encodeUtf8_le _).1⟩

/-- A Unicode escape is that of a scalar value, or a pair. -/
theorem isBody_of_decodeUnicode {src src' out : Bytes} (h : decodeUnicode src = .ok (out, src')) :
    ∃ x, src = x ++ src' ∧ Passes x ∧ (IsBody src' → IsBody (backslash :: 0x75 :: src)) := by
  simp only [decodeUnicode] at h
  cases h1 : hexLoop 4 0 src with
  | error e => simp [h1] at h
  | ok r =>
      obtain ⟨cp, src₁⟩ := r
      obtain ⟨high, hhigh, rfl, rfl⟩ := hexLoop_four h1
      simp only [h1] at h
      split_ifs at h with hh hpair hl
      · cases h2 : hexLoop 4 0 (src₁.drop 2) with
        | error e => simp [h2] at h
        | ok r =>
            obtain ⟨cp2, src₂⟩ := r
            obtain ⟨low, hlow, rfl, hdrop⟩ := hexLoop_four h2
            simp only [h2] at h
            split_ifs at h with hl
            · simp only [Except.ok.injEq, Prod.mk.injEq] at h
              obtain ⟨-, rfl⟩ := h
              have hsrc : src₁ = backslash :: 0x75 :: (low ++ src₂) := by
                rw [← List.take_append_drop 2 src₁, hpair.2, hdrop]
                rfl
              refine ⟨high ++ ([backslash, 0x75] ++ low), by rw [hsrc]; simp, ?_, fun hbody => ?_⟩
              · exact hhigh.passes.append ((passes_backslash _).append hlow.passes)
              · rw [hsrc]
                exact .pair hhigh hh hlow hl hbody
            · exact absurd h reportError_ne_ok
      · exact absurd h reportError_ne_ok
      · exact absurd h reportError_ne_ok
      · simp only [Except.ok.injEq, Prod.mk.injEq] at h
        obtain ⟨-, rfl⟩ := h
        exact ⟨high, rfl, hhigh.passes, .unicode hhigh (by omega)⟩

/-- The rest of a scanned body is scanned. -/
theorem scanString_of_passes {x body rest : Bytes} (hx : Passes x)
    (h : scanString (x ++ body ++ quote :: rest) = .ok (x ++ body, rest)) :
    scanString (body ++ quote :: rest) = .ok (body, rest) := by
  rw [List.append_assoc, hx] at h
  cases hs : scanString (body ++ quote :: rest) with
  | error e => simp [hs, Except.map] at h
  | ok r =>
      simp only [hs, Except.map, Except.ok.injEq, Prod.mk.injEq, List.append_cancel_left_eq] at h
      rw [Except.ok.injEq]
      exact Prod.ext h.1 h.2

/-- One round of the second loop reads a character or an escape of a scanned body. -/
theorem isBody_of_decodeStep {c : UInt8} {src src' out rest : Bytes}
    (hstep : decodeStep (c :: src) = .ok (out, src'))
    (hscan : scanString (c :: src ++ quote :: rest) = .ok (c :: src, rest)) :
    scanString (src' ++ quote :: rest) = .ok (src', rest) ∧ (IsBody src' → IsBody (c :: src)) := by
  by_cases hc : c = backslash
  · subst hc
    cases src with
    | nil =>
        -- the backslash would escape the closing quote
        rw [List.cons_append, List.nil_append, scanString, if_neg (by decide), if_pos rfl] at hscan
        cases hs : scanString rest <;> simp [hs, Except.map] at hscan
    | cons d src =>
        have hrest := @scanString_of_passes [backslash, d] src _ (passes_backslash d) hscan
        simp only [decodeStep, if_true] at hstep
        by_cases hu : d = 0x75
        · subst hu
          rw [if_pos rfl] at hstep
          obtain ⟨x, rfl, hx, hbody⟩ := isBody_of_decodeUnicode hstep
          exact ⟨scanString_of_passes hx hrest, hbody⟩
        · rw [if_neg hu] at hstep
          simp only [Except.ok.injEq, Prod.mk.injEq] at hstep
          obtain ⟨-, rfl⟩ := hstep
          exact ⟨hrest, .escape hu⟩
  · obtain ⟨hq, hctl⟩ : c ≠ quote ∧ ¬c ≤ 0x1F := by
      rw [List.cons_append, scanString.eq_def] at hscan
      simp only [if_neg hc] at hscan
      split_ifs at hscan with hquote hle
      · exact absurd hscan (by simp)
      · exact absurd hscan reportError_ne_ok
      · exact ⟨hquote, hle⟩
    simp only [decodeStep, if_neg hc] at hstep
    by_cases hhigh : 0x80 ≤ c
    · rw [if_pos hhigh] at hstep
      obtain ⟨hchar, heq⟩ := decodeSequence_ok hstep
      obtain ⟨a, t, rfl⟩ := List.exists_cons_of_ne_nil hchar.ne_nil
      obtain ⟨rfl, rfl⟩ : c = a ∧ src = t ++ src' := List.cons.inj heq
      have hplain : ∀ b ∈ c :: t, b ≠ quote ∧ b ≠ backslash ∧ 0x20 ≤ b :=
        fun b hb => plain_of_high (hchar.high hhigh b hb)
      exact ⟨scanString_of_passes (x := c :: t) (passes_of_plain hplain) hscan, .char hchar hplain⟩
    · rw [if_neg hhigh] at hstep
      simp only [Except.ok.injEq, Prod.mk.injEq] at hstep
      obtain ⟨-, rfl⟩ := hstep
      have hchar : IsChar [c] := by
        simp only [IsChar]
        grind
      have hplain : ∀ b ∈ [c], b ≠ quote ∧ b ≠ backslash ∧ 0x20 ≤ b := by
        rintro b (hb : b ∈ [c])
        rw [List.mem_singleton.mp hb]
        exact ⟨hq, hc, by grind⟩
      exact ⟨scanString_of_passes (x := [c]) (passes_of_plain hplain) hscan, .char hchar hplain⟩

theorem isBody_of_decodeLoop {fuel : ℕ} {body str rest : Bytes} (h : decodeLoop fuel body = .ok str)
    (hscan : scanString (body ++ quote :: rest) = .ok (body, rest)) : IsBody body := by
  induction fuel generalizing body str with
  | zero =>
      cases body with
      | nil => exact .nil
      | cons c src => simp [decodeLoop] at h
  | succ fuel ih =>
      cases body with
      | nil => exact .nil
      | cons c src =>
          rw [decodeLoop] at h
          cases hs : decodeStep (c :: src) with
          | error e => simp [hs] at h
          | ok r =>
              obtain ⟨out, src'⟩ := r
              obtain ⟨hsrc, hbody⟩ := isBody_of_decodeStep hs hscan
              simp only [hs] at h
              cases hl : decodeLoop fuel src' with
              | error e => simp [hl, Except.map] at h
              | ok str' => exact hbody (ih hl hsrc)

/-- A body is read, and what it is read as is not longer when it is printed. -/
def ReadsBody (src : Bytes) : Prop :=
  ∀ fuel, src.length ≤ fuel → ∃ str, decodeLoop fuel src = .ok str ∧ (str.flatMap escapeByte).length ≤ src.length

/-- A body behind one round of the second loop. -/
theorem readsBody_of_step {src : Bytes} (src' out : Bytes) (hne : src ≠ [])
    (hstep : decodeStep src = .ok (out, src'))
    (hshort : (out.flatMap escapeByte).length + src'.length ≤ src.length) (h : ReadsBody src') :
    ReadsBody src := by
  intro fuel hf
  have hlt := (decodeStep_cases hne hstep).1
  cases src with
  | nil => exact absurd rfl hne
  | cons c src =>
      cases fuel with
      | zero => simp at hf
      | succ fuel =>
          obtain ⟨str, hstr, hlen⟩ := h fuel (by omega)
          refine ⟨out ++ str, by rw [decodeLoop, hstep]; simp [hstr, Except.map], ?_⟩
          rw [List.flatMap_append, List.length_append]
          omega

theorem length_flatMap_escapeByte_le (s : Bytes) : (s.flatMap escapeByte).length ≤ 2 * s.length := by
  induction s with
  | nil => simp
  | cons c s ih =>
      have hc : (escapeByte c).length ≤ 2 := by
        rcases escapeByte_cases c with ⟨he, -, -⟩ | ⟨e, -, he, -, -⟩ <;> simp [he]
      rw [List.flatMap_cons, List.length_append, List.length_cons]
      omega

theorem flatMap_escapeByte_of_plain {s : Bytes} (h : ∀ b ∈ s, b ≠ quote ∧ b ≠ backslash ∧ 0x20 ≤ b) :
    s.flatMap escapeByte = s := by
  have hplain : ∀ b ∈ s, escapeByte b = [b] := by
    intro b hb
    obtain ⟨hq, hs, hctl⟩ := h b hb
    rw [escapeByte, if_neg hq, if_neg hs]
    grind
  rw [List.flatMap_congr hplain, List.flatMap_singleton']

theorem IsBody.reads {body : Bytes} (h : IsBody body) : ReadsBody body := by
  induction h with
  | nil => exact fun fuel _ => ⟨[], by cases fuel <;> rfl, by simp⟩
  | @char c s hc hplain _ ih =>
      obtain ⟨a, t, rfl⟩ := List.exists_cons_of_ne_nil hc.ne_nil
      have hb : a ≠ backslash := (hplain a (by simp)).2.1
      have hstep : decodeStep (a :: t ++ s) = .ok (a :: t, s) := by
        rw [List.cons_append, decodeStep.eq_def]
        simp only [hb, if_false]
        by_cases ha : 0x80 ≤ a
        · rw [if_pos ha]
          exact decodeSequence_isChar hc ha s
        · rw [if_neg ha, eq_nil_of_isChar hc ha]
          rfl
      refine readsBody_of_step s (a :: t) (by simp) hstep ?_ ih
      rw [flatMap_escapeByte_of_plain hplain, List.length_append]
  | @escape d s hd _ ih =>
      refine readsBody_of_step s [decodeEscape d] (by simp) (by simp [decodeStep, hd]) ?_ ih
      have hlen := length_flatMap_escapeByte_le [decodeEscape d]
      simp only [List.length_cons, List.length_nil] at hlen ⊢
      omega
  | @unicode digits s hdigits hscalar _ ih =>
      obtain ⟨out, hout, hshort⟩ := decodeUnicode_unicode hdigits hscalar s
      refine readsBody_of_step s out (by simp) (by simpa [decodeStep] using hout) ?_ ih
      have hlen := length_flatMap_escapeByte_le out
      have hfour := hdigits.1
      simp only [List.length_cons, List.length_append]
      omega
  | @pair high low s hhigh hh hlow hl _ ih =>
      obtain ⟨out, hout, hshort⟩ := decodeUnicode_pair hhigh hh hlow hl s
      refine readsBody_of_step s out (by simp) (by simpa [decodeStep] using hout) ?_ ih
      have hlen := length_flatMap_escapeByte_le out
      have hfour := hhigh.1
      simp only [List.length_cons, List.length_append]
      omega

/-- The **literals that are read**. -/
theorem parseStringRaw_iff_literalAt {s rest : Bytes} :
    (∃ str, parseStringRaw s = .ok (str, rest)) ↔ LiteralAt s rest := by
  constructor
  · rintro ⟨str, h⟩
    obtain ⟨body, hscan, hfits, hdec⟩ := parseStringRaw_ok_iff.mp h
    have heq := scanString_ok hscan
    rw [heq] at hscan
    exact ⟨body, isBody_of_decodeLoop hdec hscan, hfits, heq⟩
  · rintro ⟨body, hbody, hfits, rfl⟩
    obtain ⟨str, hstr, -⟩ := hbody.reads body.length (le_refl _)
    refine ⟨str, parseStringRaw_ok_iff.mpr ⟨body, ?_, hfits, hstr⟩⟩
    rw [hbody.passes, scanString.eq_def]
    simp [Except.map]

/-! ### Numbers and words -/

theorem parseNumber_iff_numberAt {ptr rest : Bytes} :
    (∃ v, parseNumber dbl ptr = .ok (v, rest)) ↔ NumberAt dbl ptr rest := by
  simp only [parseNumber_ok_iff, NumberAt]
  constructor
  · rintro ⟨-, ⟨hzero, hpos, hpoint, hrange, hexp, hbound⟩, rfl, -⟩
    exact ⟨_, hpos, rfl, (List.take_append_drop _ _).symm, hzero, hpoint, hexp, hrange, hbound⟩
  · rintro ⟨_, hpos, rfl, heq, hzero, hpoint, hexp, hrange, hbound⟩
    obtain rfl : rest = ptr.drop (strtodLen ptr) := by
      refine (List.append_right_inj (ptr.take (strtodLen ptr))).mp ?_
      rw [← heq, List.take_append_drop]
    exact ⟨_, ⟨hzero, hpos, hpoint, hrange, hexp, hbound⟩, rfl, rfl⟩

/-- A word that compares equal stands in front of what follows it. -/
theorem append_drop_of_strncmpEq (word : Bytes) {ptr : Bytes} (h : strncmpEq word.length ptr word = true) :
    ptr = word ++ ptr.drop word.length := by
  have htake : ptr.take word.length = word := by
    rw [strncmpEq_iff.mp h, List.take_length]
  conv_lhs => rw [← List.take_append_drop word.length ptr, htake]

theorem parseWord_iff_wordAt {ptr rest : Bytes} :
    (∃ v : Obj D, parseWord ptr = .ok (v, rest)) ↔ WordAt ptr rest := by
  constructor
  · rintro ⟨v, h⟩
    simp only [parseWord] at h
    split_ifs at h with h1 h2 h3
    · obtain ⟨hword, hbound⟩ := Bool.and_eq_true_iff.mp h1
      simp only [Except.ok.injEq, Prod.mk.injEq] at h
      obtain ⟨-, rfl⟩ := h
      exact ⟨boolText true, by simp, append_drop_of_strncmpEq (boolText true) hword, hbound⟩
    · obtain ⟨hword, hbound⟩ := Bool.and_eq_true_iff.mp h2
      simp only [Except.ok.injEq, Prod.mk.injEq] at h
      obtain ⟨-, rfl⟩ := h
      exact ⟨boolText false, by simp, append_drop_of_strncmpEq (boolText false) hword, hbound⟩
    · obtain ⟨hword, hbound⟩ := Bool.and_eq_true_iff.mp h3
      simp only [Except.ok.injEq, Prod.mk.injEq] at h
      obtain ⟨-, rfl⟩ := h
      exact ⟨nullText, by simp, append_drop_of_strncmpEq nullText hword, hbound⟩
    · exact absurd h reportError_ne_ok
  · rintro ⟨word, hword, rfl, hbound⟩
    have hself : ∀ word : Bytes, strncmpEq word.length (word ++ rest) word = true := fun word => by
      rw [strncmpEq_iff, List.take_left, List.take_length]
    rw [parseWord]
    rcases List.mem_cons.mp hword with rfl | hword
    · exact ⟨_, if_pos (Bool.and_eq_true_iff.mpr ⟨hself (boolText true), hbound⟩)⟩
    rcases List.mem_cons.mp hword with rfl | hword
    · rw [if_neg (by rw [Bool.and_eq_true]; exact fun h => absurd h.1 Bool.false_ne_true)]
      exact ⟨_, if_pos (Bool.and_eq_true_iff.mpr ⟨hself (boolText false), hbound⟩)⟩
    · rw [List.mem_singleton.mp hword,
        if_neg (by rw [Bool.and_eq_true]; exact fun h => absurd h.1 Bool.false_ne_true),
        if_neg (by rw [Bool.and_eq_true]; exact fun h => absurd h.1 Bool.false_ne_true)]
      exact ⟨_, if_pos (Bool.and_eq_true_iff.mpr ⟨hself nullText, hbound⟩)⟩

/-- The words start with a letter. -/
theorem WordAt.head {ptr rest : Bytes} (h : WordAt ptr rest) :
    ∃ c s, ptr = c :: s ∧ (c = 0x74 ∨ c = 0x66 ∨ c = 0x6E) := by
  obtain ⟨word, hword, rfl, -⟩ := h
  simp only [List.mem_cons, List.not_mem_nil, or_false] at hword
  rcases hword with rfl | rfl | rfl
  all_goals exact ⟨_, _, rfl, by decide⟩

/-! ### Values -/

/-- What is read belongs to the language, by induction on the fuel. -/
theorem starts_of_parse (fuel : ℕ) :
    (∀ depth ptr (v : Obj D) rest, parseValue dbl fuel depth ptr = .ok (v, rest) →
        Starts dbl .value depth ptr rest) ∧
      (∀ depth map ptr (v : Obj D) rest, parseMembers dbl fuel depth map ptr = .ok (v, rest) →
        Starts dbl .members depth ptr rest) ∧
      ∀ depth list ptr (v : Obj D) rest, parseElements dbl fuel depth list ptr = .ok (v, rest) →
        Starts dbl .elements depth ptr rest := by
  induction fuel with
  | zero =>
      refine ⟨?_, ?_, ?_⟩
      · intro depth ptr v rest h
        simp [parseValue] at h
      · intro depth map ptr v rest h
        simp [parseMembers] at h
      · intro depth list ptr v rest h
        simp [parseElements] at h
  | succ fuel ih =>
      obtain ⟨ihv, ihm, ihe⟩ := ih
      refine ⟨?_, ?_, ?_⟩
      · intro depth ptr v rest h
        obtain ⟨hdepth, c, s, hw, hcases⟩ := parseValue_ok h
        rcases hcases with ⟨rfl, str, hstr, -⟩ | ⟨hc, hn⟩ | ⟨rfl, hm⟩ | ⟨rfl, he⟩ | ⟨-, hword⟩
        · exact .string hdepth hw (parseStringRaw_iff_literalAt.mp ⟨str, hstr⟩)
        · exact .number hdepth hw hc (parseNumber_iff_numberAt.mp ⟨v, hn⟩)
        · exact .object hdepth hw (ihm _ _ _ _ _ hm)
        · exact .array hdepth hw (ihe _ _ _ _ _ he)
        · refine .word hdepth ?_
          rw [hw]
          exact parseWord_iff_wordAt.mp ⟨v, hword⟩
      · intro depth map ptr v rest h
        rcases parseMembers_ok h with ⟨hw, -⟩ |
          ⟨s, key, s₁, s₂, val, s₃, next, hw, hstr, hw₁, hv, ⟨hn, ht⟩, hm⟩
        · exact .closeObject hw
        · exact .member hw (parseStringRaw_iff_literalAt.mp ⟨key, hstr⟩) hw₁ (ihv _ _ _ _ hv) hn ht
            (ihm _ _ _ _ _ hm)
      · intro depth list ptr v rest h
        rcases parseElements_ok h with ⟨hw, -⟩ | ⟨val, s, next, hhead, hv, ⟨hn, ht⟩, he⟩
        · exact .closeArray hw
        · exact .element hhead (ihv _ _ _ _ hv) hn ht (ihe _ _ _ _ _ he)

/-- A phrase is read, whatever has been read before it. -/
def Phrase.Parses (dbl : Double D) (fuel depth : ℕ) (ptr rest : Bytes) : Phrase → Prop
  | .value => ∃ v, parseValue dbl fuel depth ptr = .ok (v, rest)
  | .members => ∀ map, ∃ v, parseMembers dbl fuel depth map ptr = .ok (v, rest)
  | .elements => ∀ list, ∃ v, parseElements dbl fuel depth list ptr = .ok (v, rest)

/-- The fuel for a phrase: a value takes one unit less than a loop. -/
def Phrase.fuel (ptr : Bytes) : Phrase → ℕ
  | .value => 2 * ptr.length + 1
  | .members | .elements => 2 * ptr.length + 2

theorem ne_nil_of_skipWs {ptr s : Bytes} {c : UInt8} (h : skipWs ptr = c :: s) : ptr ≠ [] := by
  rintro rfl
  cases h

/-- `parse_value` starts behind the blanks. -/
theorem parseValue_of_skipWs {fuel depth : ℕ} (hd : ¬depth > maxJsonDepth) {c : UInt8} {ptr s : Bytes}
    (hw : skipWs ptr = c :: s) :
    parseValue dbl (fuel + 1) depth ptr = parseValue dbl (fuel + 1) depth (c :: s) := by
  have hself : skipWs (c :: s) = c :: s := by rw [← hw, skipWs_skipWs]
  rw [parseValue, parseValue, if_neg hd, if_neg hd, hw, hself]

/-- A round of the loop of `parse_object`. -/
theorem parseMembers_continues {fuel depth : ℕ} {map : HashMap (Obj D)} {ptr s key s₁ s₂ s₃ next : Bytes}
    {val : Obj D} (hw : skipWs ptr = quote :: s) (hkey : parseStringRaw s = .ok (key, s₁))
    (hw₁ : skipWs s₁ = 0x3A :: s₂) (hv : parseValue dbl fuel depth s₂ = .ok (val, s₃))
    (hn : Continues 0x7D s₃ next) (ht : NoTrailing 0x7D s₃ next) :
    parseMembers dbl (fuel + 1) depth map ptr = parseMembers dbl fuel depth (map.put (cstr key) val) next := by
  rw [parseMembers, if_neg (ne_nil_of_skipWs hw), hw]
  simp only
  rw [if_neg (by decide), if_neg (by simp), hkey]
  simp only [hw₁, ne_eq, not_true_eq_false, if_false, hv]
  rcases hn with ⟨s', hs, rfl⟩ | ⟨s', hs, rfl⟩
  · simp only [hs, if_true]
    rw [if_neg (ht s' hs)]
  · simp only [hs, not_true_eq_false, if_false]
    rw [if_neg (by decide)]

/-- A round of the loop of `parse_array`. -/
theorem parseElements_continues {fuel depth : ℕ} {list : List (Obj D)} {ptr s next : Bytes} {val : Obj D}
    (hhead : (skipWs ptr).head? ≠ some 0x5D) (hv : parseValue dbl fuel depth (skipWs ptr) = .ok (val, s))
    (hn : Continues 0x5D s next) (ht : NoTrailing 0x5D s next) :
    parseElements dbl (fuel + 1) depth list ptr = parseElements dbl fuel depth (list ++ [val]) next := by
  have hne : ptr ≠ [] := by
    rintro rfl
    have := (parse_consumes fuel).1 hv
    simp [skipWs] at this
  rw [parseElements, if_neg hne, if_neg hhead, hv]
  simp only
  rcases hn with ⟨s', hs, rfl⟩ | ⟨s', hs, rfl⟩
  · simp only [hs, if_true]
    rw [if_neg (ht s' hs)]
  · simp only [hs, ne_eq, not_true_eq_false, if_false]
    rw [if_neg (by decide)]

theorem Phrase.exists_succ {phrase : Phrase} {ptr : Bytes} {fuel : ℕ} (h : phrase.fuel ptr ≤ fuel) :
    ∃ n, fuel = n + 1 := by
  refine Nat.exists_eq_succ_of_ne_zero ?_
  cases phrase <;> simp only [Phrase.fuel] at h <;> omega

/-- The language is read, by induction on the rules. -/
theorem Starts.parses {phrase : Phrase} {depth : ℕ} {ptr rest : Bytes} (h : Starts dbl phrase depth ptr rest)
    {fuel : ℕ} (hf : phrase.fuel ptr ≤ fuel) : phrase.Parses dbl fuel depth ptr rest := by
  induction h generalizing fuel with
  | @string depth ptr s rest hd hw hlit =>
      obtain ⟨fuel, rfl⟩ := Phrase.exists_succ hf
      obtain ⟨str, hstr⟩ := parseStringRaw_iff_literalAt.mpr hlit
      refine ⟨.jString str, ?_⟩
      rw [parseValue, if_neg (not_lt.mpr hd), hw]
      simp [hstr]
  | @number depth ptr s rest c hd hw hc hnum =>
      obtain ⟨fuel, rfl⟩ := Phrase.exists_succ hf
      obtain ⟨v, hv⟩ := parseNumber_iff_numberAt.mpr hnum
      exact ⟨v, by rw [parseValue_of_skipWs (not_lt.mpr hd) hw, parseValue_number (not_lt.mpr hd) hc, hv]⟩
  | @word depth ptr rest hd hword =>
      obtain ⟨fuel, rfl⟩ := Phrase.exists_succ hf
      obtain ⟨v, hv⟩ := (parseWord_iff_wordAt (D := D)).mpr hword
      obtain ⟨c, s, hw, hc⟩ := hword.head
      rw [hw] at hv
      exact ⟨v, by rw [parseValue_of_skipWs (not_lt.mpr hd) hw, parseValue_word (not_lt.mpr hd) hc, hv]⟩
  | @object depth ptr s rest hd hw _ ih =>
      obtain ⟨fuel, rfl⟩ := Phrase.exists_succ hf
      have hlen := skipWs_length_le ptr
      rw [hw, List.length_cons] at hlen
      simp only [Phrase.fuel] at hf ih
      obtain ⟨v, hv⟩ := @ih fuel (by omega) (HashMap.new 16)
      exact ⟨v, by rw [parseValue_of_skipWs (not_lt.mpr hd) hw, parseValue_object (not_lt.mpr hd), hv]⟩
  | @array depth ptr s rest hd hw _ ih =>
      obtain ⟨fuel, rfl⟩ := Phrase.exists_succ hf
      have hlen := skipWs_length_le ptr
      rw [hw, List.length_cons] at hlen
      simp only [Phrase.fuel] at hf ih
      obtain ⟨v, hv⟩ := @ih fuel (by omega) []
      exact ⟨v, by rw [parseValue_of_skipWs (not_lt.mpr hd) hw, parseValue_array (not_lt.mpr hd), hv]⟩
  | @closeObject depth ptr rest hw =>
      obtain ⟨fuel, rfl⟩ := Phrase.exists_succ hf
      intro map
      refine ⟨.hashMap map, ?_⟩
      rw [parseMembers, if_neg (ne_nil_of_skipWs hw), hw]
      simp only [if_true]
  | @member depth ptr s s₁ s₂ s₃ next rest hw hlit hw₁ _ hn ht _ ihv ihm =>
      obtain ⟨fuel, rfl⟩ := Phrase.exists_succ hf
      obtain ⟨key, hkey⟩ := parseStringRaw_iff_literalAt.mpr hlit
      have hlen := skipWs_length_le ptr
      have hlen₁ := skipWs_length_le s₁
      have hlit' := parseStringRaw_length_lt hkey
      rw [hw, List.length_cons] at hlen
      rw [hw₁, List.length_cons] at hlen₁
      simp only [Phrase.fuel] at hf ihv ihm
      obtain ⟨val, hv⟩ := @ihv fuel (by omega)
      have hvalue := (parse_consumes fuel).1 hv
      have hnext := hn.length_le
      intro map
      obtain ⟨v, hm⟩ := @ihm fuel (by omega) (map.put (cstr key) val)
      exact ⟨v, (parseMembers_continues hw hkey hw₁ hv hn ht).trans hm⟩
  | @closeArray depth ptr rest hw =>
      obtain ⟨fuel, rfl⟩ := Phrase.exists_succ hf
      intro list
      refine ⟨.arrayList list, ?_⟩
      rw [parseElements, if_neg (ne_nil_of_skipWs hw), if_pos (by rw [hw]; rfl), hw]
      rfl
  | @element depth ptr s next rest hhead _ hn ht _ ihv ihe =>
      obtain ⟨fuel, rfl⟩ := Phrase.exists_succ hf
      have hlen := skipWs_length_le ptr
      simp only [Phrase.fuel] at hf ihv ihe
      obtain ⟨val, hv⟩ := @ihv fuel (by omega)
      have hvalue := (parse_consumes fuel).1 hv
      have hnext := hn.length_le
      intro list
      obtain ⟨v, he⟩ := @ihe fuel (by omega) (list ++ [val])
      exact ⟨v, (parseElements_continues hhead hv hn ht).trans he⟩

/-- The **values that are read** at the head of a text. -/
theorem parseValue_iff_starts {text rest : Bytes} :
    (∃ v, parseValue dbl (parseFuel text) 0 text = .ok (v, rest)) ↔ Starts dbl .value 0 text rest := by
  constructor
  · rintro ⟨v, h⟩
    exact (starts_of_parse _).1 _ _ _ _ h
  · intro h
    exact h.parses (by simp only [Phrase.fuel, parseFuel]; omega)

end Json
