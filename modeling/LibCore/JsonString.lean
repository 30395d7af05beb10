import LibCore.Json

/-!
# JSON String Literals

What the second loop of `parse_string_raw` writes. Every round writes one character of
UTF-8, with a single exception: an escape the switch does not know stands for its own byte,
and that byte may be `0x80` or above. So the decoded text is well formed exactly when each
maximal run of such escaped bytes is a well-formed text by itself, which is a condition on
the raw literal (`RunsOk`).

## Main results

* `decodeStep_cases`: a round writes one character, or the escaped byte itself.
* `decodeLoop_wellFormed_iff`: the decoded text is well formed exactly when the runs of
  escaped bytes of the literal are.
-/

open CString Utf8

namespace Json

/-! ### Unicode escapes -/

/-- A scalar value is encoded as one character. -/
theorem encodeUtf8_isChar {cp : ℕ} (hmax : cp ≤ 0x10FFFF)
    (hsur : ¬(0xD800 ≤ cp ∧ cp ≤ 0xDFFF)) : IsChar (encodeUtf8 cp) := by
  simp only [encodeUtf8]
  split_ifs with h1 h2 h3
  · simp only [IsChar, UInt8.le_iff_toNat_le, UInt8.toNat_ofNat', UInt8.reduceToNat]
    omega
  all_goals
    simp only [IsChar, IsSecond, IsTail, UInt8.le_iff_toNat_le, UInt8.toNat_ofNat',
      UInt8.reduceToNat, ← UInt8.toNat_inj]
    omega

theorem hexToInt_lt : ∀ c : UInt8, ∀ h ∈ hexToInt c, h < 16 := by
  intro c h hc
  rw [hexToInt] at hc
  split at hc
  · obtain rfl : (hexDigit c).toNat = h := by simpa using hc
    have hlt : hexDigit c < 16 := by grind [hexDigit]
    exact UInt8.lt_iff_toNat_lt.mp hlt
  · cases hc

/-- Four digits are consumed and give a 16-bit number. -/
theorem hexLoop_ok {n cp cp' : ℕ} {src src' : Bytes} (h : hexLoop n cp src = .ok (cp', src')) :
    ∃ digits, src = digits ++ src' ∧ digits.length = n ∧ (∀ c ∈ digits, isxdigit c = true) ∧
      cp' < (cp + 1) * 16 ^ n := by
  induction n generalizing cp src with
  | zero =>
      simp only [hexLoop, Except.ok.injEq, Prod.mk.injEq] at h
      obtain ⟨rfl, rfl⟩ := h
      exact ⟨[], by simp⟩
  | succ n ih =>
      cases src with
      | nil => simp [hexLoop] at h
      | cons c src =>
          cases hc : hexToInt c with
          | none => simp [hexLoop, hc] at h
          | some d =>
              simp only [hexLoop, hc] at h
              obtain ⟨digits, rfl, hlen, hhex, hlt⟩ := ih h
              refine ⟨c :: digits, rfl, by simp [hlen], ?_, ?_⟩
              · refine List.forall_mem_cons.mpr ⟨?_, hhex⟩
                by_contra hx
                simp [hexToInt, hx] at hc
              · have hd : d < 16 := hexToInt_lt c d hc
                calc cp' < (cp * 16 + d + 1) * 16 ^ n := hlt
                  _ ≤ ((cp + 1) * 16) * 16 ^ n := Nat.mul_le_mul_right _ (by omega)
                  _ = (cp + 1) * 16 ^ (n + 1) := by ring

/-! ### Runs of escaped bytes -/

/-- The maximal runs of bytes from `0x80` on that stand behind a backslash each, in the body
of a literal; `run` is the run in progress. A byte that is not escaped, or an escaped ASCII
byte, ends a run. -/
def escapedRuns (run : Bytes) : Bytes → List Bytes
  | [] => [run]
  | c :: s =>
      if c = backslash then
        match s with
        | [] => [run]
        | d :: s => if 0x80 ≤ d then escapedRuns (run ++ [d]) s else run :: escapedRuns [] s
      else run :: escapedRuns [] s

/-- Every run of escaped bytes is a well-formed text. -/
def RunsOk (run body : Bytes) : Prop := ∀ r ∈ escapedRuns run body, WellFormed r

instance (run body : Bytes) : Decidable (RunsOk run body) :=
  inferInstanceAs (Decidable (∀ r ∈ escapedRuns run body, WellFormed r))

theorem runsOk_nil {run : Bytes} : RunsOk run [] ↔ WellFormed run := by
  simp [RunsOk, escapedRuns]

theorem runsOk_backslash {run : Bytes} : RunsOk run [backslash] ↔ WellFormed run := by
  simp [RunsOk, escapedRuns]

theorem runsOk_cons {run s : Bytes} {c : UInt8} (hc : c ≠ backslash) :
    RunsOk run (c :: s) ↔ WellFormed run ∧ RunsOk [] s := by
  cases s <;> simp [RunsOk, escapedRuns, hc]

theorem runsOk_escape_ascii {run s : Bytes} {d : UInt8} (hd : ¬0x80 ≤ d) :
    RunsOk run (backslash :: d :: s) ↔ WellFormed run ∧ RunsOk [] s := by
  simp [RunsOk, escapedRuns, hd]

theorem runsOk_escape_high {run s : Bytes} {d : UInt8} (hd : 0x80 ≤ d) :
    RunsOk run (backslash :: d :: s) ↔ RunsOk (run ++ [d]) s := by
  simp [RunsOk, escapedRuns, hd]

/-- Bytes other than the backslash are no part of a run. -/
theorem runsOk_append {p s : Bytes} (hp : ∀ c ∈ p, c ≠ backslash) :
    RunsOk [] (p ++ s) ↔ RunsOk [] s := by
  induction p with
  | nil => rfl
  | cons c p ih =>
      rw [List.cons_append, runsOk_cons (hp c (by simp)), ih fun x hx => hp x (by simp [hx])]
      simp [WellFormed.nil]

/-! ### One round -/

/-- A Unicode escape writes one character and is no part of a run. -/
theorem decodeUnicode_ok {src src' out : Bytes} (h : decodeUnicode src = .ok (out, src')) :
    IsChar out ∧ (RunsOk [] src ↔ RunsOk [] src') ∧ src'.length ≤ src.length := by
  simp only [decodeUnicode] at h
  cases h1 : hexLoop 4 0 src with
  | error e => simp [h1] at h
  | ok r =>
      obtain ⟨cp, src₁⟩ := r
      obtain ⟨digits, rfl, hlen, hhex, hlt⟩ := hexLoop_ok h1
      have hne : ∀ c ∈ digits, c ≠ backslash := fun c hc => (plain_of_isxdigit (hhex c hc)).2.1
      simp only [h1] at h
      split_ifs at h with hhigh hpair hlow
      · cases h2 : hexLoop 4 0 (src₁.drop 2) with
        | error e => simp [h2] at h
        | ok r =>
            obtain ⟨cp2, src₂⟩ := r
            obtain ⟨digits₂, hsrc, hlen₂, hhex₂, hlt₂⟩ := hexLoop_ok h2
            have hne₂ : ∀ c ∈ digits₂, c ≠ backslash :=
              fun c hc => (plain_of_isxdigit (hhex₂ c hc)).2.1
            simp only [h2] at h
            split_ifs at h with hcp2
            · -- the code point stays a variable: its numeral must not be unfolded
              generalize hn : 0x10000 + (cp - 0xD800) * 1024 + (cp2 - 0xDC00) = n at h
              simp only [Except.ok.injEq, Prod.mk.injEq] at h
              obtain ⟨rfl, rfl⟩ := h
              have hsrc₁ : src₁ = backslash :: 0x75 :: (digits₂ ++ src₂) := by
                rw [← List.take_append_drop 2 src₁, hpair.2, hsrc]
                rfl
              have hchar : IsChar (encodeUtf8 n) := encodeUtf8_isChar (by omega) (by omega)
              refine ⟨hchar, ?_, ?_⟩
              · rw [runsOk_append hne, hsrc₁, runsOk_escape_ascii (by decide),
                  runsOk_append hne₂]
                simp [WellFormed.nil]
              · simp [hsrc₁]
                omega
            · exact absurd h reportError_ne_ok
      · exact absurd h reportError_ne_ok
      · exact absurd h reportError_ne_ok
      · simp only [Except.ok.injEq, Prod.mk.injEq] at h
        obtain ⟨rfl, rfl⟩ := h
        refine ⟨encodeUtf8_isChar (by omega) (by omega), runsOk_append hne, by simp⟩

/-- The copy at the end of the multi-byte branch. -/
theorem copySequence_ok {n : ℕ} {src src' out : Bytes}
    (h : copySequence n src = .ok (out, src')) :
    src = out ++ src' ∧ out.length = n ∧ ∀ b ∈ out.drop 1, IsTail b := by
  simp only [copySequence] at h
  split_ifs at h with hlen hcont
  · exact absurd h reportError_ne_ok
  · exact absurd h reportError_ne_ok
  · simp only [Except.ok.injEq, Prod.mk.injEq] at h
    obtain ⟨rfl, rfl⟩ := h
    refine ⟨(List.take_append_drop n src).symm, by simp; omega, ?_⟩
    intro b hb
    have hall : ((src.take n).drop 1).any (!isCont ·) = false := by simpa using hcont
    rw [List.any_eq_false] at hall
    have := hall b hb
    rw [← isCont_iff]
    simpa using this

/-- The multi-byte branch copies one character. -/
theorem decodeSequence_ok {a : UInt8} {s src' out : Bytes}
    (h : decodeSequence a s = .ok (out, src')) : IsChar out ∧ a :: s = out ++ src' := by
  simp only [decodeSequence, (lead_masks a).1, (lead_masks a).2.1, (lead_masks a).2.2] at h
  split_ifs at h with h2 c2 h3 c3 c3' h4 c4 c4' c4''
  all_goals first
    | exact absurd h reportError_ne_ok
    | obtain ⟨hsrc, hlen, htail⟩ := copySequence_ok h
      refine ⟨?_, hsrc⟩
  · obtain ⟨x, b, rfl⟩ := List.length_eq_two.mp hlen
    obtain ⟨rfl, rfl⟩ : a = x ∧ s = b :: src' := by simpa using hsrc
    have hb : IsTail b := htail b (by simp)
    simp only [IsChar, IsSecond]
    grind
  · obtain ⟨x, b, c, rfl⟩ := List.length_eq_three.mp hlen
    obtain ⟨rfl, rfl⟩ : a = x ∧ s = b :: c :: src' := by simpa using hsrc
    have hb : IsTail b := htail b (by simp)
    have hc : IsTail c := htail c (by simp)
    simp only [List.head?_cons, Option.any_some, decide_eq_true_eq] at c3 c3'
    simp only [IsChar, IsSecond]
    grind
  · obtain ⟨x, b, c, d, rfl⟩ := List.length_eq_four.mp hlen
    obtain ⟨rfl, rfl⟩ : a = x ∧ s = b :: c :: d :: src' := by simpa using hsrc
    have hb : IsTail b := htail b (by simp)
    have hc : IsTail c := htail c (by simp)
    have hd : IsTail d := htail d (by simp)
    simp only [List.head?_cons, Option.any_some, decide_eq_true_eq] at c4' c4''
    simp only [IsChar, IsSecond]
    grind

/-- An escape other than `u` writes an ASCII byte, or the escaped byte itself. -/
theorem decodeEscape_cases : ∀ d : UInt8,
    (0x80 ≤ d ∧ decodeEscape d = d) ∨ (¬0x80 ≤ d ∧ decodeEscape d ≤ 0x7F) := by
  grind [decodeEscape]

/-- A **round** of the second loop writes one character and ends the run in progress, or it
writes an escaped byte from `0x80` on and extends the run. -/
theorem decodeStep_cases {src src' out : Bytes} (hne : src ≠ [])
    (h : decodeStep src = .ok (out, src')) :
    src'.length < src.length ∧
      ((IsChar out ∧ ∀ run, RunsOk run src ↔ WellFormed run ∧ RunsOk [] src') ∨
        ∃ d, 0x80 ≤ d ∧ out = [d] ∧ src = backslash :: d :: src') := by
  cases src with
  | nil => exact absurd rfl hne
  | cons c src =>
      simp only [decodeStep] at h
      split_ifs at h with hc h80
      · subst hc
        cases src with
        | nil =>
            simp only [Except.ok.injEq, Prod.mk.injEq] at h
            obtain ⟨rfl, rfl⟩ := h
            refine ⟨by simp, Or.inl ⟨by decide, fun run => ?_⟩⟩
            rw [runsOk_backslash, runsOk_nil]
            simp [WellFormed.nil]
        | cons d src =>
            simp only at h
            split_ifs at h with hu
            · subst hu
              obtain ⟨hchar, hruns, hlen⟩ := decodeUnicode_ok h
              refine ⟨by simp; omega, Or.inl ⟨hchar, fun run => ?_⟩⟩
              rw [runsOk_escape_ascii (by decide), hruns]
            · simp only [Except.ok.injEq, Prod.mk.injEq] at h
              obtain ⟨rfl, rfl⟩ := h
              refine ⟨by simp, ?_⟩
              rcases decodeEscape_cases d with ⟨hd, he⟩ | ⟨hd, he⟩
              · exact Or.inr ⟨d, hd, by rw [he], rfl⟩
              · exact Or.inl ⟨he, fun run => runsOk_escape_ascii hd⟩
      · obtain ⟨hchar, hsrc⟩ := decodeSequence_ok h
        obtain ⟨a, out, rfl⟩ := List.exists_cons_of_ne_nil hchar.ne_nil
        obtain ⟨rfl, rfl⟩ : c = a ∧ src = out ++ src' := List.cons.inj hsrc
        have hback : ∀ b ∈ c :: out, b ≠ backslash :=
          fun b hb => (plain_of_high (hchar.high h80 b hb)).2.1
        refine ⟨by simp, Or.inl ⟨hchar, fun run => ?_⟩⟩
        rw [runsOk_cons (hback c (by simp)), runsOk_append fun b hb => hback b (by simp [hb])]
      · simp only [Except.ok.injEq, Prod.mk.injEq] at h
        obtain ⟨rfl, rfl⟩ := h
        refine ⟨by simp, Or.inl ⟨?_, fun run => runsOk_cons hc⟩⟩
        simp only [IsChar]
        grind

/-! ### The loop -/

/-- A round fails only with a report. -/
theorem decodeStep_ne_outOfFuel (src : Bytes) : decodeStep src ≠ .error .outOfFuel := by
  have hcopy : ∀ n s, copySequence n s ≠ .error .outOfFuel := by
    intro n s
    simp only [copySequence]
    split_ifs <;> simp [reportError]
  cases src with
  | nil => simp [decodeStep]
  | cons c src =>
      simp only [decodeStep]
      split_ifs
      · cases src with
        | nil => simp
        | cons d src =>
            simp only [decodeUnicode]
            split_ifs
            · split
              · simp [reportError]
              · split_ifs
                · split
                  · simp [reportError]
                  · split_ifs <;> simp [reportError]
                all_goals simp [reportError]
            · simp
      · simp only [decodeSequence]
        split_ifs <;> first | exact hcopy _ _ | simp [reportError]
      · simp

/-- A body has enough fuel in its own length. -/
theorem decodeLoop_ne_outOfFuel {fuel : ℕ} {src : Bytes} (h : src.length ≤ fuel) :
    decodeLoop fuel src ≠ .error .outOfFuel := by
  induction fuel generalizing src with
  | zero =>
      obtain rfl : src = [] := List.length_eq_zero_iff.mp (Nat.le_zero.mp h)
      simp [decodeLoop]
  | succ fuel ih =>
      cases src with
      | nil => simp [decodeLoop]
      | cons c src =>
          simp only [decodeLoop]
          cases hs : decodeStep (c :: src) with
          | error e =>
              intro he
              rw [show e = .outOfFuel from Except.error.inj he] at hs
              exact decodeStep_ne_outOfFuel _ hs
          | ok r =>
              obtain ⟨out, src'⟩ := r
              have hlt := (decodeStep_cases (by simp) hs).1
              have hrec : decodeLoop fuel src' ≠ .error .outOfFuel :=
                ih (by simp only [List.length_cons] at h hlt; omega)
              cases hl : decodeLoop fuel src' with
              | error e => simpa [hl, Except.map] using hrec
              | ok rest => simp [hl, Except.map]

/-- The decoded text behind a pending run is well formed exactly when every run is. -/
theorem decodeLoop_wellFormed_iff {fuel : ℕ} {src str : Bytes}
    (h : decodeLoop fuel src = .ok str) (run : Bytes) :
    WellFormed (run ++ str) ↔ RunsOk run src := by
  induction fuel generalizing src str run with
  | zero =>
      cases src with
      | nil =>
          obtain rfl : [] = str := by simpa [decodeLoop] using h
          rw [runsOk_nil, List.append_nil]
      | cons c src => simp [decodeLoop] at h
  | succ fuel ih =>
      cases src with
      | nil =>
          obtain rfl : [] = str := by simpa [decodeLoop] using h
          rw [runsOk_nil, List.append_nil]
      | cons c src =>
          simp only [decodeLoop] at h
          cases hs : decodeStep (c :: src) with
          | error e => simp [hs] at h
          | ok r =>
              obtain ⟨out, src'⟩ := r
              simp only [hs] at h
              cases hl : decodeLoop fuel src' with
              | error e => simp [hl, Except.map] at h
              | ok rest =>
                  obtain rfl : out ++ rest = str := by simpa [hl, Except.map] using h
                  rcases (decodeStep_cases (by simp) hs).2 with ⟨hchar, hruns⟩ | ⟨d, hd, rfl, he⟩
                  · -- a character cuts the text in two
                    rw [wellFormed_append_char_iff hchar, hruns run, ← ih hl []]
                    rfl
                  · -- an escaped byte joins the run
                    rw [he, runsOk_escape_high hd, ← ih hl (run ++ [d]), List.append_assoc]

/-! ### The whole literal -/

/-- The first loop cuts the text at the closing quote. -/
theorem scanString_ok {s body rest : Bytes} (h : scanString s = .ok (body, rest)) :
    s = body ++ quote :: rest := by
  fun_induction scanString s generalizing body rest with
  | case1 => exact absurd h reportError_ne_ok
  | case2 s =>
      simp only [Except.ok.injEq, Prod.mk.injEq] at h
      obtain ⟨rfl, rfl⟩ := h
      rfl
  | case3 => exact absurd h reportError_ne_ok
  | case4 d s hq ih =>
      cases hs : scanString s with
      | error e => simp [hs, Except.map] at h
      | ok r =>
          obtain ⟨body', rest'⟩ := r
          simp only [hs, Except.map, Except.ok.injEq, Prod.mk.injEq] at h
          obtain ⟨rfl, rfl⟩ := h
          rw [ih hs]
          rfl
  | case5 => exact absurd h reportError_ne_ok
  | case6 c s hq hb hctl ih =>
      cases hs : scanString s with
      | error e => simp [hs, Except.map] at h
      | ok r =>
          obtain ⟨body', rest'⟩ := r
          simp only [hs, Except.map, Except.ok.injEq, Prod.mk.injEq] at h
          obtain ⟨rfl, rfl⟩ := h
          rw [ih hs]
          rfl

/-- A literal is read by its two loops, one after the other. -/
theorem parseStringRaw_ok_iff {s str rest : Bytes} :
    parseStringRaw s = .ok (str, rest) ↔
      ∃ body, scanString s = .ok (body, rest) ∧ FitsInt body.length ∧
        decodeLoop body.length body = .ok str := by
  simp only [parseStringRaw]
  cases hs : scanString s with
  | error e => simp
  | ok r =>
      obtain ⟨body, rest'⟩ := r
      simp only
      split_ifs with hfits
      · cases hd : decodeLoop body.length body with
        | ok str' => simp [hd, hfits, and_comm, eq_comm]
        | error e => cases e <;> simp [hd]
      · simp only [reportError_ne_ok, Except.ok.injEq, Prod.mk.injEq, false_iff, not_exists]
        rintro _ ⟨⟨rfl, -⟩, h, -⟩
        exact hfits h

end Json
