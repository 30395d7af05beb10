import LibCore.PathValidator

/-!
# Canonical Paths

What `PathValidator_validate` is for, stated without its loop: a path is decoded once,
every decoded byte is checked, the slashes cut it into segments, and the segments that
are neither empty nor `.` are joined again. `Canonical raw c` is that reference.

The loop is connected to it in two moves. `stateOf` shows that the loop's variables are a
function of the segments kept and the segment being written, so the loop is a machine on
those; and that machine, run to the end, keeps exactly the segments of the reference.

## Main results

* `validate_eq_some_iff`: the function computes the reference.
* `Canonical.normal`: the shape of a canonical path.
* `Canonical.idem`: a canonical path is its own canonical form.
* `validate_wellFormed_iff`: an accepted path is well-formed UTF-8 exactly when it decodes to
  no byte from `F5` to `F7`.
-/

open CString

namespace PathValidator

/-! ### The reference -/

/-- Every `%` is followed by two hexadecimal digits. -/
def EscapesOk (raw : Bytes) : Prop :=
  ∀ front rest, raw = front ++ 0x25 :: rest →
    ∃ h l tail, rest = h :: l :: tail ∧ isxdigit h = true ∧ isxdigit l = true

/-- The bytes a path decodes to, each with the mark whether it was escaped. -/
def decodePath : Bytes → List (UInt8 × Bool)
  | [] => []
  | c :: rest =>
      if c = 0x25 then
        match rest with
        | h :: l :: rest => (hexDigit h * 16 + hexDigit l, true) :: decodePath rest
        | _ => [(c, false)]
      else (c, false) :: decodePath rest

/-- A byte a path may decode to: no control byte, no DEL, no backslash, and in the ASCII
range only letters, digits and `-_.~/`; a slash only when it was written as one. -/
def ByteOk (d : UInt8 × Bool) : Prop :=
  (0x80 ≤ d.1 ∨ isAlnum d.1 = true ∨ isSafePunct d.1 = true) ∧ ¬(d.2 = true ∧ d.1 = slash)

/-- The segments between the slashes of the decoded path. -/
def segments (raw : Bytes) : List Bytes := ((decodePath raw).map Prod.fst).splitOn slash

/-- The segments that remain: neither empty nor `.`. -/
def keep (segs : List Bytes) : List Bytes := segs.filter fun s => s ≠ [] ∧ s ≠ [dot]

/-- A slash and the segments joined by slashes. -/
def join (segs : List Bytes) : Bytes := slash :: [slash].intercalate segs

/-- The **reference**: `raw` is an acceptable path with canonical form `c`. -/
structure Canonical (raw c : Bytes) : Prop where
  ne_nil : raw ≠ []
  length_le : raw.length ≤ maxPathLen
  absolute : raw.head? = some slash
  escapes : EscapesOk raw
  bytes : ∀ d ∈ decodePath raw, ByteOk d
  no_dotdot : ∀ s ∈ segments raw, s ≠ [dot, dot]
  segment_le : ∀ s ∈ segments raw, s.length ≤ maxSegmentLen
  count_le : (keep (segments raw)).length ≤ maxSegments
  utf8 : rule02CheckUtf8 (join (keep (segments raw))) = true
  eq_join : c = join (keep (segments raw))


/-! ### Decoding -/

theorem byteAllowed_iff (c : UInt8) (enc : Bool) :
    byteAllowed c enc = true ↔ ByteOk (c, enc) := by
  have key : ∀ c : UInt8, (byteAllowed c true = true ↔
      (0x80 ≤ c ∨ isAlnum c = true ∨ isSafePunct c = true) ∧ ¬c = slash) ∧
      (byteAllowed c false = true ↔ (0x80 ≤ c ∨ isAlnum c = true ∨ isSafePunct c = true)) := by
    decide +kernel
  cases enc with
  | true => simpa [ByteOk] using (key c).1
  | false => simpa [ByteOk] using (key c).2

/-- A byte that is no `%` stands for itself. -/
theorem escapesOk_cons_of_ne {c : UInt8} (hc : c ≠ 0x25) (rest : Bytes) :
    EscapesOk (c :: rest) ↔ EscapesOk rest := by
  constructor
  · intro h front tail heq
    exact h (c :: front) tail (by rw [heq]; rfl)
  · intro h front tail heq
    cases front with
    | nil => exact absurd (List.cons.inj heq).1 hc
    | cons d front => exact h front tail (List.cons.inj heq).2

/-- No hexadecimal digit is a `%`. -/
theorem ne_percent_of_isxdigit : ∀ c : UInt8, isxdigit c = true → c ≠ 0x25 := by
  grind

/-- A `%` needs its two digits, and the path goes on behind them. -/
theorem escapesOk_percent_iff (rest : Bytes) :
    EscapesOk (0x25 :: rest) ↔ ∃ h l tail, rest = h :: l :: tail ∧ isxdigit h = true ∧
      isxdigit l = true ∧ EscapesOk tail := by
  constructor
  · intro hok
    obtain ⟨h, l, tail, rfl, hh, hl⟩ := hok [] rest rfl
    refine ⟨h, l, tail, rfl, hh, hl, fun front rest heq => ?_⟩
    exact hok (0x25 :: h :: l :: front) rest (by rw [heq]; rfl)
  · rintro ⟨h, l, tail, rfl, hh, hl, htail⟩ front rest heq
    cases front with
    | nil => exact ⟨h, l, tail, (List.cons.inj heq).2.symm, hh, hl⟩
    | cons c front =>
        have h1 : EscapesOk (h :: l :: tail) := by
          rw [escapesOk_cons_of_ne (ne_percent_of_isxdigit h hh),
            escapesOk_cons_of_ne (ne_percent_of_isxdigit l hl)]
          exact htail
        exact h1 front rest (List.cons.inj heq).2

/-- The loop over bytes that are already decoded. -/
def stepAll (outSize : ℕ) : List (UInt8 × Bool) → PathState → Option PathState
  | [], st => some st
  | d :: ds, st => (st.step outSize d.1 d.2).bind (stepAll outSize ds)

theorem decodePath_cons_of_ne {c : UInt8} (hc : c ≠ 0x25) (rest : Bytes) :
    decodePath (c :: rest) = (c, false) :: decodePath rest := by
  rw [decodePath.eq_def]
  simp only [hc, if_false]

theorem validateLoop_cons_of_ne {outSize : ℕ} {c : UInt8} (hc : c ≠ 0x25) (rest : Bytes)
    (st : PathState) : validateLoop outSize (c :: rest) st =
      (st.step outSize c false).bind (validateLoop outSize rest) := by
  rw [validateLoop.eq_def]
  simp only [hc, if_false]
  cases st.step outSize c false <;> rfl

/-- The loop is the decoding followed by the steps, and it fails on a bad escape. -/
theorem validateLoop_eq_some_iff {outSize : ℕ} {raw : Bytes} {st st' : PathState} :
    validateLoop outSize raw st = some st' ↔
      EscapesOk raw ∧ stepAll outSize (decodePath raw) st = some st' := by
  induction raw using decodePath.induct generalizing st with
  | case1 =>
      have hok : EscapesOk [] := fun front rest heq => absurd heq (by simp)
      simp [validateLoop, decodePath, stepAll, hok]
  | case2 h l rest ih =>
      rw [escapesOk_percent_iff]
      by_cases hd : isxdigit h = true ∧ isxdigit l = true
      · have hcond : (!isxdigit h || !isxdigit l) = false := by simp [hd]
        have hloop : validateLoop outSize (0x25 :: h :: l :: rest) st =
            (st.step outSize (hexDigit h * 16 + hexDigit l) true).bind
              (validateLoop outSize rest) := by
          simp only [validateLoop, if_true, hcond]
          cases st.step outSize (hexDigit h * 16 + hexDigit l) true <;> rfl
        rw [hloop]
        simp only [decodePath, if_true, stepAll, Option.bind_eq_some_iff, ih]
        constructor
        · rintro ⟨st₁, h₁, h₂, h₃⟩
          exact ⟨⟨h, l, rest, rfl, hd.1, hd.2, h₂⟩, st₁, h₁, h₃⟩
        · rintro ⟨⟨h', l', rest', heq, -, -, h₂⟩, st₁, h₁, h₃⟩
          simp only [List.cons.injEq] at heq
          obtain ⟨-, -, rfl⟩ := heq
          exact ⟨st₁, h₁, h₂, h₃⟩
      · have hcond : (!isxdigit h || !isxdigit l) = true := by
          rw [not_and_or] at hd
          rcases hd with hd | hd <;> simp [hd]
        simp only [validateLoop, if_true, hcond, reduceCtorEq, false_iff]
        rintro ⟨⟨h', l', rest', heq, hh, hl, -⟩, -⟩
        simp only [List.cons.injEq] at heq
        obtain ⟨rfl, rfl, rfl⟩ := heq
        exact hd ⟨hh, hl⟩
  | case3 rest hne =>
      -- fewer than two bytes are left behind the `%`
      have hloop : validateLoop outSize (0x25 :: rest) st = none := by
        rcases rest with _ | ⟨h, _ | ⟨l, tail⟩⟩
        · rfl
        · rfl
        · exact absurd rfl (hne h l tail)
      rw [hloop, escapesOk_percent_iff]
      simp only [reduceCtorEq, false_iff]
      rintro ⟨⟨h, l, tail, heq, -⟩, -⟩
      exact hne h l tail heq
  | case4 c rest hc ih =>
      rw [escapesOk_cons_of_ne hc]
      rw [validateLoop_cons_of_ne hc, decodePath_cons_of_ne hc]
      simp only [stepAll, Option.bind_eq_some_iff, ih]
      constructor
      · rintro ⟨st₁, h₁, h₂, h₃⟩
        exact ⟨h₂, st₁, h₁, h₃⟩
      · rintro ⟨h₂, st₁, h₁, h₃⟩
        exact ⟨st₁, h₁, h₂, h₃⟩

/-- Decoding never lengthens. -/
theorem length_decodePath_le (raw : Bytes) : (decodePath raw).length ≤ raw.length := by
  induction raw using decodePath.induct with
  | case1 => simp [decodePath]
  | case2 h l rest ih =>
      simp only [decodePath, if_true, List.length_cons]
      omega
  | case3 rest hne =>
      rcases rest with _ | ⟨h, _ | ⟨l, tail⟩⟩
      · simp [decodePath]
      · simp [decodePath]
      · exact absurd rfl (hne h l tail)
  | case4 c rest hc ih =>
      rw [decodePath_cons_of_ne hc, List.length_cons, List.length_cons]
      omega

/-! ### The loop on segments -/

/-- A slash, and every kept segment followed by a slash. -/
def base (kept : List Bytes) : Bytes := slash :: kept.flatMap (· ++ [slash])

/-- The loop's variables, from the segments kept so far and the one being written. -/
def stateOf (kept : List Bytes) (cur : Bytes) : PathState :=
  ⟨base kept ++ cur, kept.length, cur.length⟩

/-- A finished segment: refused, dropped, or kept while there is room. -/
def closeKept (kept : List Bytes) (cur : Bytes) : Option (List Bytes) :=
  if cur = [dot, dot] then none
  else if cur = [] ∨ cur = [dot] then some kept
  else if kept.length + 1 > maxSegments then none
  else some (kept ++ [cur])

theorem base_append_singleton (kept : List Bytes) (cur : Bytes) :
    base (kept ++ [cur]) = base kept ++ cur ++ [slash] := by
  simp [base]

theorem getLast?_base (kept : List Bytes) : (base kept).getLast? = some slash := by
  rcases List.eq_nil_or_concat kept with rfl | ⟨init, last, rfl⟩
  · rfl
  · rw [List.concat_eq_append, base_append_singleton, List.getLast?_concat]

/-- The loop reads a segment off the end of its output. -/
theorem getLast?_base_append {kept : List Bytes} {cur : Bytes} (h : cur ≠ []) :
    (base kept ++ cur).getLast? = cur.getLast? := by
  obtain ⟨c, hc⟩ := Option.isSome_iff_exists.mp (List.getLast?_isSome.mpr h)
  rw [List.getLast?_append, hc]
  rfl

/-- Closing a segment in the loop is closing it on the kept segments. -/
theorem closeSegment_stateOf (kept : List Bytes) (cur : Bytes) :
    (stateOf kept cur).closeSegment =
      if cur = [dot, dot] then none
      else if cur = [] ∨ cur = [dot] then some ⟨base kept, kept.length, cur.length⟩
      else if kept.length + 1 > maxSegments then none
      else some ⟨base kept ++ cur, kept.length + 1, cur.length⟩ := by
  match cur with
  | [] => simp [PathState.closeSegment, stateOf]
  | [a] =>
      by_cases ha : a = dot
      · simp [PathState.closeSegment, stateOf, ha]
      · simp [PathState.closeSegment, stateOf, ha]
  | [a, b] =>
      have h1 : (base kept ++ [a, b]).dropLast.getLast? = some a := by
        rw [show base kept ++ [a, b] = (base kept ++ [a]) ++ [b] by simp,
          List.dropLast_concat, List.getLast?_concat]
      have h2 : (base kept ++ [a, b]).getLast? = some b := by
        rw [getLast?_base_append (by simp)]
        rfl
      simp only [PathState.closeSegment, stateOf, h1, h2]
      by_cases hab : a = dot ∧ b = dot
      · simp [hab]
      · simp [hab]
  | a :: b :: c :: cur => simp [PathState.closeSegment, stateOf]

/-- One pass of the loop, on segments. -/
def segStep (s : List Bytes × Bytes) (d : UInt8 × Bool) : Option (List Bytes × Bytes) :=
  if !byteAllowed d.1 d.2 then none
  else if d.1 = slash then (closeKept s.1 s.2).map fun kept => (kept, [])
  else if s.2.length + 1 > maxSegmentLen then none
  else some (s.1, s.2 ++ [d.1])

/-- **Simulation**, one step: while the buffer has room the loop's variables follow the
segments. -/
theorem step_stateOf {outSize : ℕ} {kept : List Bytes} {cur : Bytes} (hcur : slash ∉ cur)
    (hroom : (base kept ++ cur).length < outSize - 1) (d : UInt8 × Bool) :
    (stateOf kept cur).step outSize d.1 d.2 =
      (segStep (kept, cur) d).map fun s => stateOf s.1 s.2 := by
  have hroom' : ¬(base kept ++ cur).length ≥ outSize - 1 := Nat.not_le.mpr hroom
  have hout : (stateOf kept cur).out = base kept ++ cur := rfl
  have hseg : (stateOf kept cur).segLen = cur.length := rfl
  simp only [PathState.step, segStep, hout, hseg, hroom', if_false]
  split_ifs with hb hd hl
  · rfl
  · rw [closeSegment_stateOf, closeKept]
    split_ifs with h1 h2 h3
    · rfl
    · simp [getLast?_base, stateOf]
    · rfl
    · have hne : cur ≠ [] := fun h => h2 (Or.inl h)
      have hlast : (base kept ++ cur).getLast? ≠ some slash := by
        rw [getLast?_base_append hne]
        exact fun h => hcur (List.mem_of_getLast? h)
      simp only [hlast, hroom', if_false, Option.map_some, stateOf, base_append_singleton]
      simp
  · rfl
  · simp [stateOf]

/-- The machine on segments, run over all decoded bytes. -/
def segAll : List (UInt8 × Bool) → List Bytes × Bytes → Option (List Bytes × Bytes)
  | [], s => some s
  | d :: ds, s => (segStep s d).bind (segAll ds)

/-- What one pass on segments leaves. -/
theorem segStep_eq_some {s s' : List Bytes × Bytes} {d : UInt8 × Bool}
    (hs : slash ∉ s.2) (h : segStep s d = some s') :
    slash ∉ s'.2 ∧ (base s'.1 ++ s'.2).length ≤ (base s.1 ++ s.2).length + 1 := by
  simp only [segStep] at h
  split_ifs at h with hb hd hl
  · simp only [Option.map_eq_some_iff, closeKept] at h
    obtain ⟨kept, hk, rfl⟩ := h
    refine ⟨by simp, ?_⟩
    split_ifs at hk with h1 h2 h3
    · simp only [Option.some.injEq] at hk
      subst hk
      simp only [List.append_nil, List.length_append]
      omega
    · simp only [Option.some.injEq] at hk
      subst hk
      simp only [base_append_singleton, List.append_nil, List.length_append,
        List.length_cons, List.length_nil]
      omega
  · simp only [Option.some.injEq] at h
    subst h
    refine ⟨by simp [hs, Ne.symm hd], by simp; omega⟩

/-- **Simulation**, whole loop. -/
theorem stepAll_stateOf {outSize : ℕ} {ds : List (UInt8 × Bool)} {s : List Bytes × Bytes}
    (hs : slash ∉ s.2) (hroom : (base s.1 ++ s.2).length + ds.length < outSize) :
    stepAll outSize ds (stateOf s.1 s.2) = (segAll ds s).map fun s => stateOf s.1 s.2 := by
  induction ds generalizing s with
  | nil => rfl
  | cons d ds ih =>
      simp only [List.length_cons] at hroom
      simp only [stepAll, segAll]
      rw [step_stateOf hs (by omega)]
      cases hstep : segStep s d with
      | none => rfl
      | some s' =>
          obtain ⟨hs', hlen⟩ := segStep_eq_some hs hstep
          exact ih hs' (by omega)

/-! ### The segments that remain -/

/-- The segments of `cur` followed by the decoded bytes `ds`. -/
def segmentsFrom (cur : Bytes) (ds : List (UInt8 × Bool)) : List Bytes :=
  ((ds.map Prod.fst).splitOn slash).modifyHead (cur ++ ·)

theorem segmentsFrom_nil (cur : Bytes) : segmentsFrom cur [] = [cur] := by
  simp [segmentsFrom]

theorem segmentsFrom_nil_left (ds : List (UInt8 × Bool)) :
    segmentsFrom [] ds = (ds.map Prod.fst).splitOn slash := by
  rw [segmentsFrom]
  cases (ds.map Prod.fst).splitOn slash <;> simp

theorem segmentsFrom_slash (cur : Bytes) (enc : Bool) (ds : List (UInt8 × Bool)) :
    segmentsFrom cur ((slash, enc) :: ds) = cur :: segmentsFrom [] ds := by
  rw [segmentsFrom_nil_left]
  simp [segmentsFrom, List.splitOn_cons_eq_if_modifyHead]

theorem segmentsFrom_cons {d : UInt8 × Bool} (hd : d.1 ≠ slash) (cur : Bytes)
    (ds : List (UInt8 × Bool)) :
    segmentsFrom cur (d :: ds) = segmentsFrom (cur ++ [d.1]) ds := by
  simp only [segmentsFrom, List.map_cons, List.splitOn_cons_eq_if_modifyHead, beq_iff_eq, hd,
    if_false]
  cases (ds.map Prod.fst).splitOn slash <;> simp

/-- The segment being written is a prefix of the first one. -/
theorem exists_segmentsFrom (cur : Bytes) (ds : List (UInt8 × Bool)) :
    ∃ more rest, segmentsFrom cur ds = (cur ++ more) :: rest := by
  rw [segmentsFrom]
  cases h : (ds.map Prod.fst).splitOn slash with
  | nil => exact absurd h (List.splitOn_ne_nil _ _)
  | cons s rest => exact ⟨s, rest, rfl⟩

/-- What the machine on segments accepts. -/
def SegsOk (kept : List Bytes) (cur : Bytes) (ds : List (UInt8 × Bool)) : Prop :=
  (∀ d ∈ ds, ByteOk d) ∧ (∀ s ∈ segmentsFrom cur ds, s ≠ [dot, dot]) ∧
    (∀ s ∈ segmentsFrom cur ds, s.length ≤ maxSegmentLen) ∧
    (kept ++ keep (segmentsFrom cur ds)).length ≤ maxSegments

theorem closeKept_eq_some_iff {kept kept' : List Bytes} {cur : Bytes}
    (hk : kept.length ≤ maxSegments) :
    closeKept kept cur = some kept' ↔ cur ≠ [dot, dot] ∧ kept' = kept ++ keep [cur] ∧
      (kept ++ keep [cur]).length ≤ maxSegments := by
  rw [closeKept]
  split_ifs with h1 h2 h3
  · simp [h1]
  · have hkeep : keep [cur] = [] := by
      rcases h2 with rfl | rfl <;> rfl
    simp [h1, hkeep, hk, eq_comm]
  · have hkeep : keep [cur] = [cur] := by
      simp [keep, not_or.mp h2]
    simp only [hkeep, List.length_append, List.length_cons, List.length_nil, false_iff]
    omega
  · have hkeep : keep [cur] = [cur] := by
      simp [keep, not_or.mp h2]
    simp only [hkeep, Option.some.injEq, List.length_append, List.length_cons,
      List.length_nil, eq_comm]
    constructor
    · rintro rfl
      exact ⟨h1, rfl, by omega⟩
    · exact fun h => h.2.1

/-- Run to the end, the machine keeps exactly the segments of the reference. -/
theorem segAll_close_iff {ds : List (UInt8 × Bool)} {kept kept' : List Bytes} {cur : Bytes}
    (hk : kept.length ≤ maxSegments) (hc : cur.length ≤ maxSegmentLen) :
    (segAll ds (kept, cur)).bind (fun s => closeKept s.1 s.2) = some kept' ↔
      SegsOk kept cur ds ∧ kept' = kept ++ keep (segmentsFrom cur ds) := by
  induction ds generalizing kept cur with
  | nil =>
      simp only [segAll, Option.bind_some, closeKept_eq_some_iff hk, SegsOk, segmentsFrom_nil]
      constructor
      · rintro ⟨h1, h2, h3⟩
        exact ⟨⟨by simp, by simpa using h1, by simpa using hc, h3⟩, h2⟩
      · rintro ⟨⟨-, h1, -, h3⟩, h2⟩
        exact ⟨by simpa using h1, h2, h3⟩
  | cons d ds ih =>
      have hbyte : (∀ e ∈ d :: ds, ByteOk e) ↔ ByteOk d ∧ ∀ e ∈ ds, ByteOk e := by simp
      simp only [segAll]
      by_cases hb : byteAllowed d.1 d.2 = true
      swap
      · have hstep : segStep (kept, cur) d = none := by simp [segStep, hb]
        rw [hstep]
        simp only [Option.bind_none, reduceCtorEq, SegsOk, hbyte, false_iff]
        rintro ⟨⟨⟨hd, -⟩, -⟩, -⟩
        exact hb ((byteAllowed_iff d.1 d.2).mpr hd)
      have hbd : ByteOk d := (byteAllowed_iff d.1 d.2).mp hb
      by_cases hd : d.1 = slash
      · -- a slash closes the segment
        obtain ⟨c, enc⟩ := d
        obtain rfl : c = slash := hd
        have hstep : segStep (kept, cur) (slash, enc) =
            (closeKept kept cur).map fun kept => (kept, []) := by simp [segStep, hb]
        have hsplit : ∀ segs : List Bytes, keep (cur :: segs) = keep [cur] ++ keep segs := by
          intro segs
          simp [keep, List.filter_cons]
          split <;> rfl
        rw [hstep, SegsOk, hbyte, segmentsFrom_slash, hsplit, ← List.append_assoc]
        simp only [List.mem_cons, forall_eq_or_imp]
        cases hcl : closeKept kept cur with
        | none =>
            simp only [Option.map_none, Option.bind_none, reduceCtorEq, false_iff]
            rintro ⟨⟨-, ⟨h1, -⟩, -, h4⟩, -⟩
            have hlen : (kept ++ keep [cur]).length ≤ maxSegments := by
              rw [List.length_append] at h4
              omega
            have := (closeKept_eq_some_iff hk).mpr ⟨h1, rfl, hlen⟩
            rw [hcl] at this
            exact absurd this (by simp)
        | some k₁ =>
            obtain ⟨h1, rfl, h3⟩ := (closeKept_eq_some_iff hk).mp hcl
            rw [Option.map_some, Option.bind_some, ih h3 (by simp), SegsOk]
            constructor
            · rintro ⟨⟨g1, g2, g3, g4⟩, g5⟩
              exact ⟨⟨⟨hbd, g1⟩, ⟨h1, g2⟩, ⟨hc, g3⟩, g4⟩, g5⟩
            · rintro ⟨⟨⟨-, g1⟩, ⟨-, g2⟩, ⟨-, g3⟩, g4⟩, g5⟩
              exact ⟨⟨g1, g2, g3, g4⟩, g5⟩
      · -- any other byte lengthens it
        by_cases hl : cur.length + 1 > maxSegmentLen
        · have hstep : segStep (kept, cur) d = none := by simp [segStep, hb, hd, hl]
          rw [hstep]
          simp only [Option.bind_none, reduceCtorEq, false_iff]
          rintro ⟨⟨-, -, h3, -⟩, -⟩
          rw [segmentsFrom_cons hd] at h3
          obtain ⟨more, rest, heq⟩ := exists_segmentsFrom (cur ++ [d.1]) ds
          have := h3 (cur ++ [d.1] ++ more) (by rw [heq]; simp)
          simp only [List.length_append, List.length_cons, List.length_nil] at this
          omega
        · have hstep : segStep (kept, cur) d = some (kept, cur ++ [d.1]) := by
            simp [segStep, hb, hd, hl]
          rw [hstep, Option.bind_some, ih hk (by simp; omega), SegsOk, SegsOk, hbyte,
            segmentsFrom_cons hd]
          simp only [hbd, true_and]

/-! ### The end of the path -/

theorem join_append_singleton (kept : List Bytes) (cur : Bytes) :
    join (kept ++ [cur]) = base kept ++ cur := by
  induction kept with
  | nil => simp [join, base]
  | cons s kept ih =>
      simp only [join, base, List.cons.injEq, true_and, List.cons_append, List.flatMap_cons] at ih ⊢
      rw [List.intercalate_cons_of_ne_nil (by simp), ih]
      simp

/-- The trailing slash of the kept segments is the one that is removed. -/
theorem dropLast_base {kept : List Bytes} (h : kept ≠ []) : (base kept).dropLast = join kept := by
  rcases List.eq_nil_or_concat kept with rfl | ⟨init, last, rfl⟩
  · exact absurd rfl h
  · rw [List.concat_eq_append, base_append_singleton, List.dropLast_concat,
      join_append_singleton]

/-- What is left of the loop's variables after the last segment. -/
theorem finish_stateOf {outSize : ℕ} {kept : List Bytes} {cur : Bytes} (hcur : slash ∉ cur) :
    (stateOf kept cur).finish outSize = (closeKept kept cur).map join := by
  simp only [PathState.finish, closeSegment_stateOf, closeKept]
  by_cases h1 : cur = [dot, dot]
  · simp [h1]
  by_cases h2 : cur = [] ∨ cur = [dot]
  · -- the segment was dropped: the output ends in a slash
    simp only [h1, h2, if_true, if_false, getLast?_base, and_true, Option.map_some]
    by_cases hk : kept = []
    · subst hk
      simp [base, join]
    · have hlen : (base kept).length > 1 := by
        cases kept with
        | nil => exact absurd rfl hk
        | cons s kept => simp [base]
      rw [if_pos hlen, dropLast_base hk]
      simp [join]
  by_cases h3 : kept.length + 1 > maxSegments
  · simp [h1, h2, h3]
  have hne : cur ≠ [] := fun h => h2 (Or.inl h)
  have hlast : (base kept ++ cur).getLast? ≠ some slash := by
    rw [getLast?_base_append hne]
    exact fun h => hcur (List.mem_of_getLast? h)
  simp only [h1, h2, h3, if_false, hlast, and_false, join_append_singleton, Option.map_some]
  simp [hne]

/-- The machine never carries a slash in the segment being written. -/
theorem segAll_slash_notMem {ds : List (UInt8 × Bool)} {s s' : List Bytes × Bytes}
    (hs : slash ∉ s.2) (h : segAll ds s = some s') : slash ∉ s'.2 := by
  induction ds generalizing s with
  | nil =>
      simp only [segAll, Option.some.injEq] at h
      exact h ▸ hs
  | cons d ds ih =>
      simp only [segAll, Option.bind_eq_some_iff] at h
      obtain ⟨s₁, h₁, h₂⟩ := h
      exact ih (segStep_eq_some hs h₁).1 h₂

/-- The loop and its end, on an absolute path that fits the buffer. -/
theorem loop_finish_iff {outSize : ℕ} {rest c : Bytes} (hlen : rest.length + 1 ≤ maxPathLen)
    (hout : maxPathLen < outSize) :
    (validateLoop outSize (slash :: rest) ⟨[], 0, 0⟩).bind (fun st => st.finish outSize) =
        some c ↔
      EscapesOk rest ∧ SegsOk [] [] (decodePath rest) ∧
        c = join (keep (segmentsFrom [] (decodePath rest))) := by
  have hbyte : byteAllowed slash false = true := by decide
  have hfirst : validateLoop outSize (slash :: rest) ⟨[], 0, 0⟩ =
      validateLoop outSize rest (stateOf [] []) := by
    have hroom : outSize - 1 ≠ 0 := by
      simp only [maxPathLen] at hout
      omega
    rw [validateLoop_cons_of_ne (by decide)]
    simp [PathState.step, hbyte, PathState.closeSegment, hroom, stateOf, base]
  have hdec := length_decodePath_le rest
  have hsim : stepAll outSize (decodePath rest) (stateOf [] []) =
      (segAll (decodePath rest) ([], [])).map fun s => stateOf s.1 s.2 := by
    refine stepAll_stateOf (s := ([], [])) (by simp) ?_
    simp only [base, List.flatMap_nil, List.append_nil, List.length_cons, List.length_nil]
    omega
  have hend : (stepAll outSize (decodePath rest) (stateOf [] [])).bind
      (fun st => st.finish outSize) =
      ((segAll (decodePath rest) ([], [])).bind fun s => closeKept s.1 s.2).map join := by
    rw [hsim]
    cases hrun : segAll (decodePath rest) ([], []) with
    | none => rfl
    | some s => exact finish_stateOf (segAll_slash_notMem (by simp) hrun)
  have hkeep : (((segAll (decodePath rest) ([], [])).bind fun s => closeKept s.1 s.2).map join =
      some c) ↔ SegsOk [] [] (decodePath rest) ∧
        c = join (keep (segmentsFrom [] (decodePath rest))) := by
    have hclose : ∀ k, ((segAll (decodePath rest) ([], [])).bind fun s => closeKept s.1 s.2) =
        some k ↔ SegsOk [] [] (decodePath rest) ∧
          k = [] ++ keep (segmentsFrom [] (decodePath rest)) :=
      fun k => segAll_close_iff (by simp) (by simp)
    simp only [Option.map_eq_some_iff, hclose, List.nil_append]
    constructor
    · rintro ⟨kept, ⟨hok, rfl⟩, rfl⟩
      exact ⟨hok, rfl⟩
    · rintro ⟨hok, rfl⟩
      exact ⟨_, ⟨hok, rfl⟩, rfl⟩
  rw [← hkeep, ← hend, hfirst, Option.bind_eq_some_iff, Option.bind_eq_some_iff]
  simp only [validateLoop_eq_some_iff, and_assoc, exists_and_left]

/-- **The validator computes the reference**: with an output buffer above `MAX_PATH_LEN`
it accepts exactly the acceptable paths and writes their canonical form. -/
theorem validate_eq_some_iff {outSize : ℕ} (hout : maxPathLen < outSize) (raw c : Bytes) :
    validate outSize raw = some c ↔ Canonical raw c := by
  have hpos : outSize ≠ 0 := by omega
  by_cases hlen : raw.length = 0 ∨ raw.length > maxPathLen
  · simp only [validate, hpos, hlen, if_true, if_false, reduceCtorEq, false_iff]
    intro h
    rcases hlen with h0 | h0
    · exact h.ne_nil (List.length_eq_zero_iff.mp h0)
    · exact absurd h.length_le (by omega)
  by_cases habs : raw.head? = some slash
  swap
  · simp only [validate, hpos, hlen, habs, ne_eq, not_false_eq_true, if_true, if_false,
      reduceCtorEq, false_iff]
    exact fun h => habs h.absolute
  obtain ⟨rest, rfl⟩ : ∃ rest, raw = slash :: rest := by
    cases raw with
    | nil => simp at habs
    | cons a rest =>
        simp only [List.head?_cons, Option.some.injEq] at habs
        exact ⟨rest, by rw [habs]⟩
  have hle : rest.length + 1 ≤ maxPathLen := by
    simp only [List.length_cons] at hlen
    omega
  have hval : validate outSize (slash :: rest) = some c ↔
      (validateLoop outSize (slash :: rest) ⟨[], 0, 0⟩).bind (fun st => st.finish outSize) =
        some c ∧ rule02CheckUtf8 c = true := by
    simp only [validate, hpos, hlen, if_false, List.head?_cons, ne_eq, not_true_eq_false]
    cases validateLoop outSize (slash :: rest) ⟨[], 0, 0⟩ with
    | none => simp
    | some st =>
        cases hf : st.finish outSize with
        | none => simp [hf]
        | some out =>
            simp only [Option.bind_some, hf, Option.some.injEq]
            constructor
            · intro h
              split_ifs at h with hu
              obtain rfl := Option.some.inj h
              exact ⟨rfl, hu⟩
            · rintro ⟨rfl, hu⟩
              rw [if_pos hu]
  have hne : slash ≠ 0x25 := by decide
  have hdec : decodePath (slash :: rest) = (slash, false) :: decodePath rest :=
    decodePath_cons_of_ne hne rest
  have hsegs : segments (slash :: rest) = [] :: segmentsFrom [] (decodePath rest) := by
    rw [segments, ← segmentsFrom_nil_left, hdec, segmentsFrom_slash]
  have hkeep : keep (segments (slash :: rest)) = keep (segmentsFrom [] (decodePath rest)) := by
    rw [hsegs]
    rfl
  have hslash : ByteOk (slash, false) := by
    rw [← byteAllowed_iff]
    decide
  rw [hval, loop_finish_iff hle hout]
  constructor
  · rintro ⟨⟨hesc, ⟨hb, hdd, hsl, hcnt⟩, rfl⟩, hu⟩
    refine ⟨by simp, by simpa using hle, rfl, (escapesOk_cons_of_ne hne rest).mpr hesc, ?_, ?_,
      ?_, by rw [hkeep]; exact hcnt, by rw [hkeep]; exact hu, by rw [hkeep]⟩
    · intro d hd
      rw [hdec] at hd
      rcases List.mem_cons.mp hd with rfl | hd
      · exact hslash
      · exact hb d hd
    · rw [hsegs]
      simpa using hdd
    · rw [hsegs]
      simpa using hsl
  · intro h
    have hb := h.bytes
    have hdd := h.no_dotdot
    have hsl := h.segment_le
    have hcnt := h.count_le
    rw [hkeep] at hcnt
    rw [hsegs] at hdd hsl
    rw [hdec] at hb
    have heq : c = join (keep (segmentsFrom [] (decodePath rest))) := by
      rw [h.eq_join, hkeep]
    refine ⟨⟨(escapesOk_cons_of_ne hne rest).mp h.escapes, ⟨fun d hd => hb d (by simp [hd]),
      fun s hs => hdd s (by simp [hs]), fun s hs => hsl s (by simp [hs]), hcnt⟩, heq⟩, ?_⟩
    rw [heq, ← hkeep]
    exact h.utf8

/-! ### The shape of a canonical path -/

/-- A segment holds no separator, and only elements of the list. -/
theorem mem_splitOn {l s : Bytes} (h : s ∈ l.splitOn slash) : slash ∉ s ∧ ∀ b ∈ s, b ∈ l := by
  induction l generalizing s with
  | nil => simp_all
  | cons a l ih =>
      rw [List.splitOn_cons_eq_if_modifyHead] at h
      by_cases ha : a = slash
      · simp only [ha, beq_self_eq_true, if_true, List.mem_cons] at h
        rcases h with rfl | h
        · simp
        · exact ⟨(ih h).1, fun b hb => List.mem_cons_of_mem _ ((ih h).2 b hb)⟩
      · simp only [beq_iff_eq, ha, if_false] at h
        obtain ⟨t, ts, hts⟩ := List.exists_cons_of_ne_nil (List.splitOn_ne_nil slash l)
        rw [hts] at ih h
        simp only [List.modifyHead_cons, List.mem_cons] at h
        rcases h with rfl | h
        · have ht := ih (s := t) (by simp)
          refine ⟨by simp [ht.1, Ne.symm ha], fun b hb => ?_⟩
          rcases List.mem_cons.mp hb with rfl | hb
          · simp
          · exact List.mem_cons_of_mem _ (ht.2 b hb)
        · have hs := ih (s := s) (by simp [h])
          exact ⟨hs.1, fun b hb => List.mem_cons_of_mem _ (hs.2 b hb)⟩

/-- The segments account for every byte but the separators. -/
theorem sum_length_splitOn (l : Bytes) :
    ((l.splitOn slash).map (·.length + 1)).sum = l.length + 1 := by
  induction l with
  | nil => simp
  | cons a l ih =>
      rw [List.splitOn_cons_eq_if_modifyHead]
      split
      · simp only [List.map_cons, List.length_nil, List.sum_cons, ih, List.length_cons]
        omega
      · obtain ⟨t, ts, hts⟩ := List.exists_cons_of_ne_nil (List.splitOn_ne_nil slash l)
        rw [hts] at ih ⊢
        simp only [List.modifyHead_cons, List.map_cons, List.sum_cons, List.length_cons] at ih ⊢
        omega

theorem join_cons_of_ne_nil {segs : List Bytes} (h : segs ≠ []) (s : Bytes) :
    join (s :: segs) = slash :: (s ++ join segs) := by
  rw [join, List.intercalate_cons_of_ne_nil h, List.append_assoc]
  rfl

theorem length_join {segs : List Bytes} (h : segs ≠ []) :
    (join segs).length = (segs.map (·.length + 1)).sum := by
  induction segs with
  | nil => exact absurd rfl h
  | cons s segs ih =>
      by_cases hs : segs = []
      · subst hs
        simp [join]
      · rw [join_cons_of_ne_nil hs]
        simp only [List.length_cons, List.length_append, List.map_cons, List.sum_cons, ih hs]
        omega

/-- Every byte of a joined path is a slash or a byte of a segment. -/
theorem mem_join {segs : List Bytes} {b : UInt8} (h : b ∈ join segs) :
    b = slash ∨ ∃ s ∈ segs, b ∈ s := by
  induction segs with
  | nil => simpa [join] using h
  | cons s segs ih =>
      by_cases hs : segs = []
      · subst hs
        simpa [join] using h
      · rw [join_cons_of_ne_nil hs, List.mem_cons, List.mem_append] at h
        rcases h with h | h | h
        · exact Or.inl h
        · exact Or.inr ⟨s, by simp, h⟩
        · rcases ih h with h | ⟨t, ht, hb⟩
          · exact Or.inl h
          · exact Or.inr ⟨t, by simp [ht], hb⟩

/-- The segments of a joined path. -/
theorem splitOn_join {segs : List Bytes} (hne : segs ≠ []) (h : ∀ s ∈ segs, slash ∉ s) :
    (join segs).splitOn slash = [] :: segs := by
  rw [join, List.splitOn_cons_eq_if_modifyHead, List.splitOn_intercalate slash h hne]
  simp

/-- What a canonical path looks like: the root, or segments none of which is empty, `.` or
`..`, without a trailing slash. -/
def Normal (c : Bytes) : Prop :=
  c = [slash] ∨ c.getLast? ≠ some slash ∧ ∃ segs, c.splitOn slash = [] :: segs ∧
    ∀ s ∈ segs, s ≠ [] ∧ s ≠ [dot] ∧ s ≠ [dot, dot]

/-- A segment of a path in normal form. -/
def PlainSegment (s : Bytes) : Prop := s ≠ [] ∧ s ≠ [dot] ∧ s ≠ [dot, dot] ∧ slash ∉ s

/-- Plain segments make a path in normal form. -/
theorem normal_join {segs : List Bytes} (h : ∀ s ∈ segs, PlainSegment s) : Normal (join segs) := by
  rcases List.eq_nil_or_concat segs with rfl | ⟨init, last, rfl⟩
  · exact Or.inl rfl
  · rw [List.concat_eq_append] at h ⊢
    have hlast := h last (by simp)
    refine Or.inr ⟨?_, _, splitOn_join (by simp) fun s hs => (h s hs).2.2.2, fun s hs => ?_⟩
    · rw [join_append_singleton, getLast?_base_append hlast.1]
      exact fun hl => hlast.2.2.2 (List.mem_of_getLast? hl)
    · obtain ⟨h1, h2, h3, -⟩ := h s hs
      exact ⟨h1, h2, h3⟩

/-- A path in normal form is made of plain segments. -/
theorem Normal.exists_join {c : Bytes} (h : Normal c) (hc : c ≠ []) :
    ∃ segs, (∀ s ∈ segs, PlainSegment s) ∧ c = join segs := by
  rcases h with rfl | ⟨-, segs, hsplit, hsegs⟩
  · exact ⟨[], by simp, rfl⟩
  · have hcut : [slash].intercalate (c.splitOn slash) = c := List.intercalate_splitOn slash
    rw [hsplit] at hcut
    have hne : segs ≠ [] := by
      rintro rfl
      exact hc (by simpa using hcut.symm)
    refine ⟨segs, fun s hs => ?_, ?_⟩
    · obtain ⟨h1, h2, h3⟩ := hsegs s hs
      exact ⟨h1, h2, h3, (mem_splitOn (hsplit ▸ List.mem_cons_of_mem _ hs)).1⟩
    · rw [← hcut, List.intercalate_cons_of_ne_nil hne]
      rfl

/-- Segments of a path, joined again behind a slash, are no longer than the path. -/
theorem length_join_le {l : Bytes} {segs : List Bytes} (h : segs.Sublist (l.splitOn slash)) :
    (join segs).length ≤ l.length + 1 := by
  by_cases hs : segs = []
  · subst hs
    simp [join]
  · rw [length_join hs, ← sum_length_splitOn]
    exact (h.map _).sum_le_sum (by simp)

/-- The segments a canonical path consists of. -/
theorem Canonical.mem_keep {raw c : Bytes} (h : Canonical raw c) {s : Bytes}
    (hs : s ∈ keep (segments raw)) :
    PlainSegment s ∧ s.length ≤ maxSegmentLen ∧ ∀ b ∈ s, ByteOk (b, false) := by
  simp only [keep, List.mem_filter, decide_eq_true_eq] at hs
  obtain ⟨hmem, hne, hdot⟩ := hs
  obtain ⟨hslash, hbytes⟩ := mem_splitOn hmem
  refine ⟨⟨hne, hdot, h.no_dotdot s hmem, hslash⟩, h.segment_le s hmem, fun b hb => ?_⟩
  obtain ⟨d, hd, rfl⟩ := List.mem_map.mp (hbytes b hb)
  exact ⟨(h.bytes d hd).1, by simp⟩

/-- A canonical path is in normal form. -/
theorem Canonical.normal {raw c : Bytes} (h : Canonical raw c) : Normal c := by
  rw [h.eq_join]
  exact normal_join fun s hs => (h.mem_keep hs).1

/-- A path without `%` decodes to itself. -/
theorem decodePath_of_no_percent {c : Bytes} (h : 0x25 ∉ c) :
    EscapesOk c ∧ decodePath c = c.map fun b => (b, false) := by
  induction c with
  | nil => exact ⟨fun front rest heq => absurd heq (by simp), rfl⟩
  | cons a c ih =>
      simp only [List.mem_cons, not_or] at h
      have ha : a ≠ 0x25 := Ne.symm h.1
      obtain ⟨ih1, ih2⟩ := ih h.2
      exact ⟨(escapesOk_cons_of_ne ha c).mpr ih1, by rw [decodePath_cons_of_ne ha, ih2]; rfl⟩

/-- A canonical path is no longer than the path it comes from. -/
theorem Canonical.length_le_raw {raw c : Bytes} (h : Canonical raw c) : c.length ≤ raw.length := by
  obtain ⟨rest, rfl⟩ : ∃ rest, raw = slash :: rest := by
    cases raw with
    | nil => exact absurd rfl h.ne_nil
    | cons a rest =>
        obtain rfl : a = slash := by simpa using h.absolute
        exact ⟨rest, rfl⟩
  -- the segment in front of the leading slash is empty
  have hsub : (keep (segments (slash :: rest))).Sublist
      (((decodePath rest).map Prod.fst).splitOn slash) := by
    rw [segments, decodePath_cons_of_ne (by decide), List.map_cons,
      List.splitOn_cons_eq_if_modifyHead]
    simp [keep]
  have hlen := length_join_le hsub
  rw [List.length_map] at hlen
  rw [h.eq_join]
  exact hlen.trans (Nat.succ_le_succ (length_decodePath_le rest))

/-- A canonical path is acceptable, and its own canonical form. -/
theorem Canonical.idem {raw c : Bytes} (h : Canonical raw c) : Canonical c c := by
  have hslash : ByteOk (slash, false) := by
    rw [← byteAllowed_iff]
    decide
  have hbytes : ∀ b ∈ c, ByteOk (b, false) := by
    intro b hb
    rw [h.eq_join] at hb
    rcases mem_join hb with rfl | ⟨s, hs, hbs⟩
    · exact hslash
    · exact (h.mem_keep hs).2.2 b hbs
  have hpct : 0x25 ∉ c := fun hmem => by
    have := (byteAllowed_iff _ _).mpr (hbytes _ hmem)
    exact absurd this (by decide)
  obtain ⟨hesc, hdec⟩ := decodePath_of_no_percent hpct
  have hsegs : segments c = c.splitOn slash := by
    rw [segments, hdec, List.map_map]
    simp [Function.comp_def]
  have hkeep : keep (segments c) = keep (segments raw) ∧
      ∀ s ∈ segments c, s ∈ keep (segments raw) ∨ s = [] := by
    rw [hsegs, h.eq_join]
    by_cases hk : keep (segments raw) = []
    · rw [hk]
      exact ⟨by decide, by decide⟩
    · rw [splitOn_join hk fun s hs => (h.mem_keep hs).1.2.2.2]
      refine ⟨?_, fun s hs => (List.mem_cons.mp hs).symm⟩
      -- nothing that was kept once is dropped now
      rw [keep, List.filter_cons_of_neg (by simp), List.filter_eq_self]
      intro s hs
      simpa using ⟨(h.mem_keep hs).1.1, (h.mem_keep hs).1.2.1⟩
  have hne : c ≠ [] := by
    rw [h.eq_join, join]
    simp
  refine ⟨hne, h.length_le_raw.trans h.length_le, by rw [h.eq_join]; rfl, hesc, ?_, ?_, ?_, ?_,
    ?_, by rw [hkeep.1]; exact h.eq_join⟩
  · intro d hd
    rw [hdec] at hd
    obtain ⟨b, hb, rfl⟩ := List.mem_map.mp hd
    exact hbytes b hb
  · intro s hs
    rcases hkeep.2 s hs with hm | rfl
    · exact (h.mem_keep hm).1.2.2.1
    · simp
  · intro s hs
    rcases hkeep.2 s hs with hm | rfl
    · exact (h.mem_keep hm).2.1
    · simp
  · rw [hkeep.1]
    exact h.count_le
  · rw [hkeep.1]
    exact h.utf8

/-- **`PathValidator_validate` equals its reference.** With room for more than
`MAX_PATH_LEN` bytes it returns `c` exactly when `c` is the canonical form of an acceptable
path; and then `c` is in normal form and validates to itself. -/
theorem validate_canonical (outSize : ℕ) (hout : maxPathLen < outSize) (raw c : Bytes) :
    (validate outSize raw = some c ↔ Canonical raw c) ∧
      (validate outSize raw = some c → Normal c ∧ validate outSize c = some c) := by
  refine ⟨validate_eq_some_iff hout raw c, fun h => ?_⟩
  rw [validate_eq_some_iff hout] at h
  exact ⟨h.normal, (validate_eq_some_iff hout c c).mpr h.idem⟩

/-- `/a//./%62/` has the canonical form `/a/b`. -/
theorem validate_canonical_sample :
    maxPathLen < 4096 ∧
      validate 4096 [0x2F, 0x61, 0x2F, 0x2F, 0x2E, 0x2F, 0x25, 0x36, 0x32, 0x2F] =
        some [0x2F, 0x61, 0x2F, 0x62] ∧
      Normal [0x2F, 0x61, 0x2F, 0x62] ∧
      validate 4096 [0x2F, 0x61, 0x2F, 0x62] = some [0x2F, 0x61, 0x2F, 0x62] := by
  have h : validate 4096 [0x2F, 0x61, 0x2F, 0x2F, 0x2E, 0x2F, 0x25, 0x36, 0x32, 0x2F] =
      some [0x2F, 0x61, 0x2F, 0x62] := rfl
  exact ⟨by decide, h, (validate_canonical 4096 (by decide) _ _).2 h⟩

/-! ### The size of the output buffer -/

/-- A pass that fits a buffer fits a larger one. -/
theorem PathState.step_mono {n m : ℕ} (hnm : n ≤ m) {st st' : PathState} {c : UInt8} {enc : Bool}
    (h : st.step n c enc = some st') : st.step m c enc = some st' := by
  have hroom : ∀ k, ¬k ≥ n - 1 → ¬k ≥ m - 1 := fun k hk => by omega
  simp only [PathState.step] at h ⊢
  split_ifs at h ⊢ with h1 h2 h3 h4 h5 h6
  · cases hcl : st.closeSegment with
    | none => simp [hcl] at h
    | some st₁ =>
        simp only [hcl] at h ⊢
        split_ifs at h ⊢ with h7 h8 h9
        · exact h
        · exact absurd h8 (hroom _ h9)
        · exact h
  · exact absurd h4 (hroom _ h5)
  · exact h

/-- So does the loop. -/
theorem stepAll_mono {n m : ℕ} (hnm : n ≤ m) {ds : List (UInt8 × Bool)} {st st' : PathState}
    (h : stepAll n ds st = some st') : stepAll m ds st = some st' := by
  induction ds generalizing st with
  | nil => exact h
  | cons d ds ih =>
      simp only [stepAll, Option.bind_eq_some_iff] at h ⊢
      obtain ⟨st₁, h₁, h₂⟩ := h
      exact ⟨st₁, PathState.step_mono hnm h₁, ih h₂⟩

/-- A path accepted with some output buffer has the same canonical form with any larger
one. -/
theorem validate_mono {n m : ℕ} (hnm : n ≤ m) {raw c : Bytes} (h : validate n raw = some c) :
    validate m raw = some c := by
  simp only [validate] at h ⊢
  split_ifs at h with h1 h2 h3
  rw [if_neg (show ¬m = 0 by omega), if_neg h2, if_neg h3]
  cases hl : validateLoop n raw ⟨[], 0, 0⟩ with
  | none => simp [hl] at h
  | some st =>
      obtain ⟨hesc, hst⟩ := validateLoop_eq_some_iff.mp hl
      have hl' : validateLoop m raw ⟨[], 0, 0⟩ = some st :=
        validateLoop_eq_some_iff.mpr ⟨hesc, stepAll_mono hnm hst⟩
      rw [hl] at h
      rw [hl']
      cases hf : st.finish n with
      | none => simp [hf] at h
      | some out =>
          have hf' : st.finish m = some out := by
            simp only [PathState.finish] at hf ⊢
            cases hcl : st.closeSegment with
            | none => simp [hcl] at hf
            | some st₁ =>
                simp only [hcl] at hf ⊢
                split_ifs at hf ⊢ with h4 h5 h6
                all_goals first | exact hf | omega
          simpa [hf, hf'] using h

/-! ### UTF-8 -/

/-- The bytes that lead a four-byte form beyond `U+10FFFF` and that the check lets pass. -/
def IsBeyond (b : UInt8) : Prop := 0xF5 ≤ b ∧ b ≤ 0xF7

instance : DecidablePred IsBeyond := fun b => inferInstanceAs (Decidable (0xF5 ≤ b ∧ b ≤ 0xF7))

/-- What the check lets pass without a byte beyond `F4` is well formed. -/
theorem rule02_wellFormed {s : Bytes} (h : rule02CheckUtf8 s = true)
    (hb : ∀ b ∈ s, ¬IsBeyond b) : Utf8.WellFormed s := by
  induction hn : s.length using Nat.strong_induction_on generalizing s with
  | h n ih =>
      -- one character is taken off the front, the rest is shorter
      have hrest : ∀ c t, s = c ++ t → c ≠ [] → rule02CheckUtf8 t = true → Utf8.WellFormed t := by
        rintro c t rfl hc ht
        refine ih t.length ?_ ht (fun b hm => hb b (by simp [hm])) rfl
        have := List.length_pos_iff.mpr hc
        rw [List.length_append] at hn
        omega
      cases s with
      | nil => exact Utf8.WellFormed.nil
      | cons a s =>
          have hna : ¬IsBeyond a := hb a (by simp)
          rw [rule02CheckUtf8.eq_def] at h
          simp only [(Utf8.lead_masks a).1, (Utf8.lead_masks a).2.1, (Utf8.lead_masks a).2.2] at h
          split_ifs at h with h1 h2 h3 h4
          · refine Utf8.WellFormed.cons (c := [a]) ?_ (hrest [a] s rfl (by simp) h)
            simp only [Utf8.IsChar]
            grind
          · rcases s with _ | ⟨b, s⟩
            · exact absurd h (by simp)
            · simp only at h
              split_ifs at h with hcond
              simp only [Bool.or_eq_true, decide_eq_true_eq, Bool.not_eq_true', not_or,
                Bool.not_eq_false, Utf8.isCont_iff] at hcond
              refine Utf8.WellFormed.cons (c := [a, b]) ?_ (hrest [a, b] s rfl (by simp) h)
              simp only [Utf8.IsChar, Utf8.IsSecond]
              grind
          · rcases s with _ | ⟨b, _ | ⟨c, s⟩⟩
            · exact absurd h (by simp)
            · exact absurd h (by simp)
            · simp only at h
              split_ifs at h with hcond h5 h6
              simp only [Bool.or_eq_true, Bool.not_eq_true', not_or, Bool.not_eq_false,
                Utf8.isCont_iff] at hcond
              simp only [Bool.and_eq_true, decide_eq_true_eq] at h5 h6
              refine Utf8.WellFormed.cons (c := [a, b, c]) ?_ (hrest [a, b, c] s rfl (by simp) h)
              simp only [Utf8.IsChar, Utf8.IsSecond]
              grind
          · rcases s with _ | ⟨b, _ | ⟨c, _ | ⟨d, s⟩⟩⟩
            · exact absurd h (by simp)
            · exact absurd h (by simp)
            · exact absurd h (by simp)
            · simp only at h
              split_ifs at h with hcond h5 h6
              simp only [Bool.or_eq_true, Bool.not_eq_true', not_or, Bool.not_eq_false,
                Utf8.isCont_iff] at hcond
              simp only [Bool.and_eq_true, decide_eq_true_eq] at h5 h6
              refine Utf8.WellFormed.cons (c := [a, b, c, d]) ?_
                (hrest [a, b, c, d] s rfl (by simp) h)
              simp only [IsBeyond] at hna
              simp only [Utf8.IsChar, Utf8.IsSecond]
              grind

/-- No byte of a well-formed text is above `F4`. -/
theorem not_isBeyond_of_wellFormed {s : Bytes} (h : Utf8.WellFormed s) :
    ∀ b ∈ s, ¬IsBeyond b := by
  have hchar : ∀ c, Utf8.IsChar c → ∀ b ∈ c, ¬IsBeyond b := by
    intro c hc b hb
    rcases hc.cases with ⟨x, rfl, hx⟩ | ⟨x, y, rfl, hx⟩ | ⟨x, y, z, rfl, hx⟩ | ⟨x, y, z, w, rfl, hx⟩
    all_goals
      simp only [Utf8.IsSecond, Utf8.IsTail, List.mem_cons, List.not_mem_nil, IsBeyond] at *
      grind
  induction h with
  | nil => simp
  | cons hc _ ih =>
      intro b hb
      rcases List.mem_append.mp hb with hb | hb
      · exact hchar _ hc b hb
      · exact ih b hb

/-- A byte other than the separator lies in some segment. -/
theorem exists_mem_splitOn {l : Bytes} {b : UInt8} (hb : b ∈ l) (hne : b ≠ slash) :
    ∃ s ∈ l.splitOn slash, b ∈ s := by
  induction l with
  | nil => simp at hb
  | cons a l ih =>
      rw [List.splitOn_cons_eq_if_modifyHead]
      obtain ⟨t, ts, hts⟩ := List.exists_cons_of_ne_nil (List.splitOn_ne_nil slash l)
      by_cases ha : a = slash
      · rcases List.mem_cons.mp hb with rfl | hb
        · exact absurd ha hne
        · obtain ⟨s, hs, hbs⟩ := ih hb
          exact ⟨s, by simp [ha, hs], hbs⟩
      · rw [hts] at ih ⊢
        simp only [beq_iff_eq, ha, if_false, List.modifyHead_cons]
        rcases List.mem_cons.mp hb with rfl | hb
        · exact ⟨b :: t, by simp, by simp⟩
        · obtain ⟨s, hs, hbs⟩ := ih hb
          rcases List.mem_cons.mp hs with rfl | hs
          · exact ⟨a :: s, by simp, by simp [hbs]⟩
          · exact ⟨s, by simp [hs], hbs⟩

/-- A byte of a segment is a byte of the joined path. -/
theorem mem_join_of_mem {segs : List Bytes} {s : Bytes} {b : UInt8} (hs : s ∈ segs)
    (hb : b ∈ s) : b ∈ join segs := by
  induction segs with
  | nil => simp at hs
  | cons t segs ih =>
      by_cases hsegs : segs = []
      · subst hsegs
        obtain rfl : s = t := by simpa using hs
        simp [join, hb]
      · rw [join_cons_of_ne_nil hsegs, List.mem_cons, List.mem_append]
        rcases List.mem_cons.mp hs with rfl | hs
        · exact Or.inr (Or.inl hb)
        · exact Or.inr (Or.inr (ih hs))

/-- **UTF-8 of accepted paths, exactly.** The canonical form of an accepted path is
well-formed UTF-8 if and only if the path, decoded, holds no byte from `F5` to `F7`. -/
theorem validate_wellFormed_iff (outSize : ℕ) (raw c : Bytes)
    (h : validate outSize raw = some c) :
    Utf8.WellFormed c ↔ ∀ d ∈ decodePath raw, ¬IsBeyond d.1 := by
  replace h := validate_mono (Nat.le_max_left outSize (maxPathLen + 1)) h
  rw [validate_eq_some_iff (Nat.lt_of_lt_of_le (Nat.lt_succ_self _) (Nat.le_max_right _ _))] at h
  constructor
  · intro hw d hd hbeyond
    refine not_isBeyond_of_wellFormed hw d.1 ?_ hbeyond
    -- a byte beyond `F4` is no slash and no dot, so its segment is kept
    have hslash : d.1 ≠ slash := by
      rintro heq
      rw [heq] at hbeyond
      exact absurd hbeyond (by decide)
    obtain ⟨s, hs, hbs⟩ := exists_mem_splitOn (List.mem_map.mpr ⟨d, hd, rfl⟩) hslash
    have hkeep : s ∈ keep (segments raw) := by
      simp only [keep, List.mem_filter, decide_eq_true_eq]
      refine ⟨hs, List.ne_nil_of_mem hbs, ?_⟩
      rintro rfl
      rw [List.mem_singleton.mp hbs] at hbeyond
      exact absurd hbeyond (by decide)
    rw [h.eq_join]
    exact mem_join_of_mem hkeep hbs
  · intro hno
    refine rule02_wellFormed (h.eq_join ▸ h.utf8) fun b hb hbeyond => ?_
    rw [h.eq_join] at hb
    rcases mem_join hb with rfl | ⟨s, hs, hbs⟩
    · exact absurd hbeyond (by decide)
    · simp only [keep, List.mem_filter] at hs
      obtain ⟨d, hd, rfl⟩ := List.mem_map.mp ((mem_splitOn hs.1).2 b hbs)
      exact hno d hd hbeyond

/-- `/é` is accepted and well formed. -/
theorem validate_wellFormed_sample :
    validate 4096 [0x2F, 0xC3, 0xA9] = some [0x2F, 0xC3, 0xA9] ∧
      (Utf8.WellFormed [0x2F, 0xC3, 0xA9] ↔
        ∀ d ∈ decodePath [0x2F, 0xC3, 0xA9], ¬IsBeyond d.1) := by
  have h : validate 4096 [0x2F, 0xC3, 0xA9] = some [0x2F, 0xC3, 0xA9] := rfl
  exact ⟨h, validate_wellFormed_iff 4096 _ _ h⟩

/-- `/%F5%80%80%80` is accepted although its bytes would encode `U+140000`. -/
theorem validate_beyond_unicode :
    validate 4096 [0x2F, 0x25, 0x46, 0x35, 0x25, 0x38, 0x30, 0x25, 0x38, 0x30, 0x25, 0x38, 0x30] =
        some [0x2F, 0xF5, 0x80, 0x80, 0x80] ∧
      ¬Utf8.WellFormed [0x2F, 0xF5, 0x80, 0x80, 0x80] :=
  ⟨rfl, by decide⟩

end PathValidator
