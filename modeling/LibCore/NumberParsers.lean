import LibCore.CheckedWord
import LibCore.HttpRequest
import LibCore.UrlParsers

/-!
# Strict Number Parsers

The five functions that read a number and refuse what does not fit: the content lengths of `http_server.c` and
`http_response_parser.c`, the chunk size, the port of `socket_base.c` and the identifiers of `toos_type_ws.c`.
Here they compute on words of the widths of the source, and a result that does not fit into one is an error of
its own. A byte string is a C string or a buffer with its length.

## Main results

* `number_parsers`: each parser accepts the numerals of its grammar within its bound, with their values, and
  nothing wraps on any input.
* `parseContentLength_eq_map`, `parseChunkSize_eq_map`, `parsePortStrictN_eq_map`: the parsers on numbers without
  a width, which the other modules use, give the same results.
-/

open CString CheckedWord HttpServer HttpResponseParser

namespace NumberParsers

/-! ### The parsers -/

/-- `*p - '0'`. -/
def decimalDigit (c : UInt8) : ℕ := c.toNat - 0x30

/-- `parse_content_length_strict`. -/
def parseContentLengthStrict (s : Bytes) : Except Wrapped (Scan 64) :=
  if s = [] then .ok .invalid
  else digitLoop isdigit decimalDigit (subRound 10 (BitVec.ofNat 64 maxHttpBodySize)) 0 s

/-- `parse_content_length`; `none` for `false`. -/
def parseContentLength (s : Bytes) (maxLimit : BitVec 64) : Except Wrapped (Option (BitVec 64)) := do
  let s := s.dropWhile isBlank
  let digits := s.takeWhile isdigit
  match ← digitLoop isdigit decimalDigit (divRound 10 maxLimit) 0 digits with
  | .ok value => .ok (if digits ≠ [] ∧ (s.dropWhile isdigit).dropWhile isBlank =
    [] then some value else none)
  | _ => .ok none

/-- `parse_chunk_size`; `none` for `false`. -/
def parseChunkSize (s : Bytes) : Except Wrapped (Option (BitVec 64)) := do
  let digits := s.takeWhile (!isChunkStop ·)
  let rest := (s.dropWhile (!isChunkStop ·)).dropWhile isBlank
  if s.head?.any (fun c => isBlank c || c = 0x2B || c = 0x2D) then .ok none
  else if s.take 2 = [0x30, 0x78] ∨ s.take 2 = [0x30, 0x58] then .ok none
  else
    match ← digitLoop isxdigit (fun c => (hexDigit c).toNat) (divRound 16 (BitVec.allOnes 64)) 0 digits with
    | .ok value => .ok (if digits ≠ [] ∧ rest.head?.all (· = 0x3B) then some value else none)
    | _ => .ok none

/-- A decimal number that is not zero, up to a limit; `none` for `false`. -/
def parsePositive {w : ℕ} (limit : BitVec w) (s : Bytes) : Except Wrapped (Option (BitVec w)) := do
  if s = [] then .ok none
  else
    match ← digitLoop isdigit decimalDigit (subRound 10 limit) 0 s with
    | .ok v => .ok (if v = 0 then none else some v)
    | _ => .ok none

/-- `parse_port_strict_n`. -/
def parsePortStrictN (s : Bytes) : Except Wrapped (Option (BitVec 32)) := parsePositive 65535 s

/-- `parse_u64_decimal_n`. -/
def parseU64DecimalN (s : Bytes) : Except Wrapped (Option (BitVec 64)) :=
    parsePositive (BitVec.allOnes 64) s

/-! ### Numerals -/

/-- A non-empty string of decimal digits, and its value. -/
def IsDecimal (n : ℕ) (s : Bytes) : Prop := s ≠ [] ∧ (∀ c ∈ s, isdigit c = true) ∧ Radix.decimalValue s = n

theorem decimalDigit_lt {w : ℕ} (h : (10 : BitVec w).toNat = 10) :
    ∀ c, isdigit c = true → decimalDigit c < (10 : BitVec w).toNat := by
  rw [h]
  exact digit_lt

/-- A loop over decimal digits, from the start. -/
theorem decimalLoop_spec {w : ℕ} {limit : BitVec w}
    {round : BitVec w → BitVec w → Except Wrapped (Option (BitVec w))} (hbase : (10 : BitVec w).toNat = 10)
    (hround : Exact 10 limit round) (s : Bytes) :
    ∃ r, digitLoop isdigit decimalDigit round 0 s = .ok r ∧ ∀ x, r = .ok x ↔
      (∀ c ∈ s, isdigit c = true) ∧ x.toNat = Radix.decimalValue s ∧ x.toNat ≤ limit.toNat := by
  have hzero : (0 : BitVec w).toNat = 0 := BitVec.toNat_ofNat 0 w
  obtain ⟨r, hr, hiff⟩ := digitLoop_spec hround (decimalDigit_lt hbase)
    (show (0 : BitVec w).toNat ≤ limit.toNat by rw [hzero]; exact Nat.zero_le _) s
  rw [hzero, hbase, readOn_zero] at hiff
  exact ⟨r, hr, hiff⟩

theorem isLength_iff {n : ℕ} {s : Bytes} : IsLength n s ↔
    (s.dropWhile isBlank).takeWhile isdigit ≠ [] ∧
      ((s.dropWhile isBlank).dropWhile isdigit).dropWhile isBlank = [] ∧
      Radix.decimalValue ((s.dropWhile isBlank).takeWhile isdigit) = n := by
  refine ⟨IsLength.scan, fun ⟨hne, hafter, hvalue⟩ => ?_⟩
  refine ⟨s.takeWhile isBlank, _, (s.dropWhile isBlank).dropWhile isdigit, ?_, fun c =>
    List.mem_takeWhile_imp,
    List.dropWhile_eq_nil_iff.mp hafter, hne, fun c => List.mem_takeWhile_imp, hvalue⟩
  rw [List.takeWhile_append_dropWhile, List.takeWhile_append_dropWhile]

/-- A text whose scans stop as they should is a chunk size. -/
theorem isChunkSize_of_scan {n : ℕ} {text : Bytes} (hne : text.takeWhile (!isChunkStop ·) ≠ [])
    (hdigits : ∀ c ∈ text.takeWhile (!isChunkStop ·), isxdigit c = true)
    (hrest : ((text.dropWhile (!isChunkStop ·)).dropWhile isBlank).head?.all (· = 0x3B) = true)
    (hvalue : hexValue (text.takeWhile (!isChunkStop ·)) = n) : IsChunkSize n text := by
  refine ⟨_, _, List.takeWhile_append_dropWhile.symm, hne, hdigits,
    ⟨_, _, List.takeWhile_append_dropWhile.symm,
    fun c => List.mem_takeWhile_imp, fun c hc => ?_⟩, hvalue⟩
  rw [Option.mem_def.mp hc] at hrest
  simpa using hrest

/-! ### The parsers, one by one -/

theorem parseContentLengthStrict_spec (s : Bytes) :
    ∃ r, parseContentLengthStrict s = .ok r ∧
      ∀ v, r = .ok v ↔ IsDecimal v.toNat s ∧ v.toNat ≤ 10485760 := by
  rw [parseContentLengthStrict]
  by_cases hs : s = []
  · rw [if_pos hs]
    exact ⟨_, rfl, fun v => ⟨nofun, fun h => absurd hs h.1.1⟩⟩
  · obtain ⟨r, hr, hiff⟩ := decimalLoop_spec rfl (@subRound_exact 64 10 (BitVec.ofNat 64 maxHttpBodySize)
      (by decide)) s
    rw [if_neg hs]
    refine ⟨r, hr, fun v => (hiff v).trans ?_⟩
    have hlimit : (BitVec.ofNat 64 maxHttpBodySize).toNat = 10485760 := by decide
    rw [hlimit, IsDecimal, eq_comm]
    tauto

theorem parseContentLength_spec (s : Bytes) (maxLimit : BitVec 64) :
    ∃ r, parseContentLength s maxLimit = .ok r ∧
      ∀ v, r = some v ↔ IsLength v.toNat s ∧ v.toNat ≤ maxLimit.toNat := by
  obtain ⟨r, hr, hiff⟩ := decimalLoop_spec rfl (@divRound_exact 64 10 maxLimit)
    ((s.dropWhile isBlank).takeWhile isdigit)
  have hdigits : ∀ c ∈ (s.dropWhile isBlank).takeWhile isdigit, isdigit c = true := fun c =>
    List.mem_takeWhile_imp
  simp only [and_iff_right hdigits] at hiff
  rw [parseContentLength, hr]
  cases r with
  | ok value =>
      obtain ⟨hvalue, hle⟩ := (hiff value).mp rfl
      refine ⟨_, rfl, fun v => ?_⟩
      rw [isLength_iff, Option.ite_none_right_eq_some, Option.some.injEq, ← BitVec.toNat_inj, hvalue]
      constructor
      · rintro ⟨⟨hne, hafter⟩, heq⟩
        exact ⟨⟨hne, hafter, heq⟩, heq ▸ hvalue ▸ hle⟩
      · rintro ⟨⟨hne, hafter, heq⟩, -⟩
        exact ⟨⟨hne, hafter⟩, heq⟩
  | invalid | tooLarge =>
      refine ⟨_, rfl, fun v => ⟨nofun, fun ⟨hlength, hle⟩ => ?_⟩⟩
      exact nomatch (hiff v).mpr ⟨(isLength_iff.mp hlength).2.2.symm, hle⟩

theorem parseChunkSize_spec (s : Bytes) :
    ∃ r, parseChunkSize s = .ok r ∧ ∀ v, r = some v ↔ IsChunkSize v.toNat s := by
  have hbase : (16 : BitVec 64).toNat = 16 := rfl
  obtain ⟨r, hr, hiff⟩ := @digitLoop_spec 64 16 (BitVec.allOnes 64) 0 isxdigit
    (fun c => (hexDigit c).toNat) _
    divRound_exact hexDigit_lt (Nat.zero_le _) (s.takeWhile (!isChunkStop ·))
  rw [hbase, show (0 : BitVec 64).toNat = 0 from rfl, readOn_zero] at hiff
  rw [parseChunkSize]
  by_cases hsign : s.head?.any (fun c => isBlank c || c = 0x2B || c = 0x2D) = true
  · rw [if_pos hsign]
    exact ⟨_, rfl, fun v => ⟨nofun, fun h => absurd hsign h.scan.1⟩⟩
  by_cases hhex : s.take 2 = [0x30, 0x78] ∨ s.take 2 = [0x30, 0x58]
  · rw [if_neg hsign, if_pos hhex]
    exact ⟨_, rfl, fun v => ⟨nofun, fun h => absurd hhex h.scan.2.1⟩⟩
  rw [if_neg hsign, if_neg hhex, hr]
  cases r with
  | ok value =>
      obtain ⟨hdigits, hvalue, hle⟩ := (hiff value).mp rfl
      refine ⟨_, rfl, fun v => ?_⟩
      rw [Option.ite_none_right_eq_some, Option.some.injEq, ← BitVec.toNat_inj, hvalue]
      constructor
      · rintro ⟨⟨hne, hrest⟩, heq⟩
        exact isChunkSize_of_scan hne hdigits hrest heq
      · intro h
        obtain ⟨-, -, hne, -, hrest, heq⟩ := h.scan
        exact ⟨⟨hne, hrest⟩, heq⟩
  | invalid | tooLarge =>
      refine ⟨_, rfl, fun v => ⟨nofun, fun h => ?_⟩⟩
      obtain ⟨-, -, -, hdigits, -, heq⟩ := h.scan
      have hle : v.toNat ≤ (BitVec.allOnes 64).toNat := by
        rw [BitVec.toNat_allOnes]
        exact Nat.le_sub_one_of_lt v.isLt
      exact nomatch (hiff v).mpr ⟨hdigits, heq.symm, hle⟩

theorem parsePositive_spec {w : ℕ} {limit : BitVec w} (hbase : (10 : BitVec w).toNat = 10)
    (hlimit : 9 ≤ limit.toNat)
    (s : Bytes) :
    ∃ r, parsePositive limit s = .ok r ∧
      ∀ v, r = some v ↔ IsDecimal v.toNat s ∧ 1 ≤ v.toNat ∧ v.toNat ≤ limit.toNat := by
  rw [parsePositive]
  by_cases hs : s = []
  · rw [if_pos hs]
    exact ⟨_, rfl, fun v => ⟨nofun, fun h => absurd hs h.1.1⟩⟩
  obtain ⟨r, hr, hiff⟩ := decimalLoop_spec hbase (@subRound_exact w 10 limit (by rw [hbase]; omega)) s
  rw [if_neg hs, hr]
  cases r with
  | ok value =>
      obtain ⟨hdigits, hvalue, hle⟩ := (hiff value).mp rfl
      have hzero : (0 : BitVec w).toNat = 0 := BitVec.toNat_ofNat 0 w
      refine ⟨_, rfl, fun v => ?_⟩
      rw [Option.ite_none_left_eq_some, Option.some.injEq, IsDecimal]
      constructor
      · rintro ⟨hne, rfl⟩
        have hpos : value.toNat ≠ 0 := fun h => hne (BitVec.eq_of_toNat_eq (h.trans hzero.symm))
        exact ⟨⟨hs, hdigits, hvalue.symm⟩, Nat.one_le_iff_ne_zero.mpr hpos, hle⟩
      · rintro ⟨⟨-, -, heq⟩, hpos, -⟩
        obtain rfl : value = v := BitVec.eq_of_toNat_eq (hvalue.trans heq)
        refine ⟨?_, rfl⟩
        rintro rfl
        omega
  | invalid | tooLarge =>
      refine ⟨_, rfl, fun v => ⟨nofun, fun ⟨hdecimal, _, hle⟩ => ?_⟩⟩
      exact nomatch (hiff v).mpr ⟨hdecimal.2.1, hdecimal.2.2.symm, hle⟩

/-- **The strict number parsers** accept the numerals of their grammars within their bounds, with their values,
and no step wraps on any input. -/
theorem number_parsers :
    (∀ s, ∃ r, parseContentLengthStrict s = .ok r ∧
      ∀ v, r = .ok v ↔ IsDecimal v.toNat s ∧ v.toNat ≤ 10485760) ∧
    (∀ s maxLimit, ∃ r, parseContentLength s maxLimit = .ok r ∧
      ∀ v, r = some v ↔ IsLength v.toNat s ∧ v.toNat ≤ maxLimit.toNat) ∧
    (∀ s, ∃ r, parseChunkSize s = .ok r ∧ ∀ v, r = some v ↔ IsChunkSize v.toNat s) ∧
    (∀ s, ∃ r, parsePortStrictN s = .ok r ∧
      ∀ v, r = some v ↔ IsDecimal v.toNat s ∧ 1 ≤ v.toNat ∧ v.toNat ≤ 65535) ∧
    ∀ s, ∃ r, parseU64DecimalN s = .ok r ∧
      ∀ v, r = some v ↔ IsDecimal v.toNat s ∧ 1 ≤ v.toNat ∧ v.toNat ≤ 2 ^ 64 - 1 :=
  ⟨parseContentLengthStrict_spec, parseContentLength_spec, parseChunkSize_spec,
    parsePositive_spec rfl (by decide), parsePositive_spec rfl (by decide)⟩

/-! ### The parsers without a width -/

/-- A loop of the other modules over decimal digits, as `foldlM`. -/
theorem foldlM_decimal {limit : ℕ} {s : Bytes} (hs : ∀ c ∈ s, isdigit c = true) :
    s.foldlM (fun value c => pushDigit 10 limit value (c.toNat - 0x30)) 0 =
      if Radix.decimalValue s ≤ limit then some (Radix.decimalValue s) else none := by
  have hds : ∀ d ∈ s.map (fun c => c.toNat - 0x30), d < 10 := by
    simpa using fun c hc => digit_lt c (hs c hc)
  have hfold := foldlM_pushDigit hds (Nat.zero_le limit)
  rwa [List.foldlM_map] at hfold

/-- Two results with the same values are equal. -/
theorem eq_map_ofNat {w : ℕ} {r : Option (BitVec w)} {q : Option ℕ} {P : ℕ → Prop}
    (hr : ∀ v, r = some v ↔ P v.toNat)
    (hq : ∀ n, q = some n ↔ P n) (hlt : ∀ n, P n → n < 2 ^ w) : r = q.map (BitVec.ofNat w) := by
  refine Option.ext fun v => ?_
  rw [hr, Option.map_eq_some_iff]
  constructor
  · intro h
    exact ⟨v.toNat, (hq _).mpr h, by rw [BitVec.ofNat_toNat, BitVec.setWidth_eq]⟩
  · rintro ⟨n, hn, rfl⟩
    have hP := (hq n).mp hn
    rwa [BitVec.toNat_ofNat, Nat.mod_eq_of_lt (hlt n hP)]

theorem isxdigit_of_foldlM {s : Bytes} {acc v : ℕ} (h : s.foldlM pushHexDigit acc = some v) :
    ∀ c ∈ s, isxdigit c = true := by
  induction s generalizing acc with
  | nil => simp
  | cons c s ih =>
      rw [List.foldlM_cons] at h
      obtain ⟨w, hw, h⟩ := Option.bind_eq_some_iff.mp h
      have hc : isxdigit c = true := by
        by_contra hc
        simp [pushHexDigit, hc] at hw
      exact List.forall_mem_cons.mpr ⟨hc, ih h⟩

theorem parseContentLength_eq_some_iff {s : Bytes} {limit n : ℕ} :
    HttpResponseParser.parseContentLength s limit = some n ↔ IsLength n s ∧ n ≤ limit := by
  constructor
  · intro h
    rw [HttpResponseParser.parseContentLength] at h
    obtain ⟨value, hvalue, h⟩ := Option.bind_eq_some_iff.mp h
    rw [foldlM_decimal fun c => List.mem_takeWhile_imp] at hvalue
    split_ifs at hvalue h with hle hend
    obtain rfl := Option.some.inj hvalue
    obtain rfl := Option.some.inj h
    exact ⟨isLength_iff.mpr ⟨hend.1, hend.2, rfl⟩, hle⟩
  · rintro ⟨h, hle⟩
    rw [parseContentLength_eq h, if_pos hle]

theorem parseChunkSize_eq_some_iff {s : Bytes} {n : ℕ} :
    HttpResponseParser.parseChunkSize s = some n ↔ IsChunkSize n s ∧ n ≤ sizeMax := by
  constructor
  · intro h
    rw [HttpResponseParser.parseChunkSize] at h
    split_ifs at h with _ _ hend
    · obtain ⟨value, hvalue, h⟩ := Option.bind_eq_some_iff.mp h
      obtain rfl := Option.some.inj h
      have hdigits := isxdigit_of_foldlM hvalue
      rw [foldlM_pushHexDigit hdigits] at hvalue
      split_ifs at hvalue with hle
      obtain rfl := Option.some.inj hvalue
      exact ⟨isChunkSize_of_scan hend.1 hdigits hend.2 rfl, hle⟩
    · obtain ⟨value, -, h⟩ := Option.bind_eq_some_iff.mp h
      cases h
  · rintro ⟨h, hle⟩
    rw [parseChunkSize_eq h, if_pos hle]

theorem parsePortStrict_eq_some_iff {s : Bytes} {n : ℕ} :
    parsePortStrict s = some n ↔ IsDecimal n s ∧ 1 ≤ n ∧ n ≤ 65535 := by
  have hfold : ∀ hs : ∀ c ∈ s, isdigit c = true, s.foldlM pushPortDigit 0 =
      if Radix.decimalValue s ≤ 65535 then some (Radix.decimalValue s) else none := by
    intro hs
    rw [foldlM_eq_pushDigit fun c hc v => pushPortDigit_eq (hs c hc) v, List.foldlM_map]
    exact foldlM_decimal hs
  constructor
  · intro h
    obtain ⟨hdigits, rfl, hpos⟩ := of_parsePortStrict h
    rw [parsePortStrict] at h
    split_ifs at h with hne
    obtain ⟨value, hvalue, -⟩ := Option.bind_eq_some_iff.mp h
    rw [hfold hdigits] at hvalue
    split_ifs at hvalue with hle
    exact ⟨⟨hne, hdigits, rfl⟩, hpos, hle⟩
  · rintro ⟨⟨hne, hdigits, rfl⟩, hpos, hle⟩
    rw [parsePortStrict, if_neg hne, hfold hdigits, if_pos hle, Option.bind_eq_bind, Option.bind_some,
      if_neg (Nat.one_le_iff_ne_zero.mp hpos)]

theorem parseContentLength_eq_map (s : Bytes) (maxLimit : BitVec 64) :
    parseContentLength s maxLimit =
      .ok ((HttpResponseParser.parseContentLength s maxLimit.toNat).map (BitVec.ofNat 64)) := by
  obtain ⟨r, hr, hiff⟩ := parseContentLength_spec s maxLimit
  rw [hr]
  exact congrArg _ (@eq_map_ofNat 64 r _ (fun n => IsLength n s ∧ n ≤ maxLimit.toNat) hiff
    (fun n => parseContentLength_eq_some_iff) fun n h => h.2.trans_lt maxLimit.isLt)

theorem parseChunkSize_eq_map (s : Bytes) :
    parseChunkSize s = .ok ((HttpResponseParser.parseChunkSize s).map (BitVec.ofNat 64)) := by
  obtain ⟨r, hr, hiff⟩ := parseChunkSize_spec s
  have hmax : ∀ v : BitVec 64, v.toNat ≤ sizeMax := fun v => Nat.le_sub_one_of_lt v.isLt
  rw [hr]
  exact congrArg _ (@eq_map_ofNat 64 r _ (fun n => IsChunkSize n s ∧ n ≤ sizeMax)
    (fun v => (hiff v).trans (and_iff_left (hmax v)).symm) (fun n => parseChunkSize_eq_some_iff)
    fun n h => Nat.lt_of_le_sub_one (by decide) h.2)

theorem parsePortStrictN_eq_map (s : Bytes) :
    parsePortStrictN s = .ok ((parsePortStrict s).map (BitVec.ofNat 32)) := by
  obtain ⟨r, hr, hiff⟩ := @parsePositive_spec 32 65535 rfl (by decide) s
  rw [parsePortStrictN, hr]
  exact congrArg _ (@eq_map_ofNat 32 r _ (fun n => IsDecimal n s ∧ 1 ≤ n ∧ n ≤ 65535) hiff
    (fun n => parsePortStrict_eq_some_iff) fun n h => h.2.2.trans_lt (by decide))

/-- The results of `parse_content_length_strict` on numbers without a width. -/
def toContentLength : Scan 64 → ContentLength
  | .ok v => .ok v.toNat
  | .invalid => .invalid
  | .tooLarge => .tooLarge

theorem digitLoop_eq_contentLengthLoop {v : BitVec 64} (hv : v.toNat ≤ maxHttpBodySize) (s : Bytes) :
    ∃ r, digitLoop isdigit decimalDigit (subRound 10 (BitVec.ofNat 64 maxHttpBodySize)) v s = .ok r ∧
      contentLengthLoop v.toNat s = toContentLength r := by
  have hlimit : (BitVec.ofNat 64 maxHttpBodySize).toNat = maxHttpBodySize := by decide
  have hbase : (10 : BitVec 64).toNat = 10 := rfl
  have hmax : maxHttpBodySize = 10485760 := rfl
  induction s generalizing v with
  | nil => exact ⟨.ok v, rfl, rfl⟩
  | cons c s ih =>
      have hrange : (c < 0x30 ∨ 0x39 < c) ↔ ¬isdigit c = true := by
        rw [isdigit_eq_true_iff, not_and_or, UInt8.not_le, UInt8.not_le]
      rw [digitLoop, contentLengthLoop]
      by_cases hc : isdigit c = true
      · have hlt := digit_lt c hc
        have hd : (BitVec.ofNat 64 (decimalDigit c)).toNat = c.toNat - 0x30 := by
          rw [BitVec.toNat_ofNat, decimalDigit, Nat.mod_eq_of_lt (hlt.trans (show 10 < 2 ^ 64 by decide))]
        have hstep := @subRound_exact 64 10 (BitVec.ofNat 64 maxHttpBodySize) (by decide) v
          (BitVec.ofNat 64 (decimalDigit c)) (by rw [hd, hbase]; exact hlt)
        rw [hd, hbase, hlimit] at hstep
        rw [if_pos hc, if_neg (mt hrange.mp (not_not.mpr hc)), hstep]
        dsimp only
        by_cases hfits : v.toNat * 10 + (c.toNat - 0x30) ≤ maxHttpBodySize
        · have hv' : (BitVec.ofNat 64 (v.toNat * 10 + (c.toNat - 0x30))).toNat = v.toNat * 10 +
            (c.toNat - 0x30) := by
            rw [BitVec.toNat_ofNat, Nat.mod_eq_of_lt (hfits.trans_lt (by decide))]
          have hrest := ih (hv'.symm ▸ hfits)
          rw [hv'] at hrest
          rw [if_pos hfits, if_neg (by omega)]
          exact hrest
        · rw [if_neg hfits, if_pos (by omega)]
          exact ⟨.tooLarge, rfl, rfl⟩
      · rw [if_neg hc, if_pos (hrange.mpr hc)]
        exact ⟨.invalid, rfl, rfl⟩

theorem parseContentLengthStrict_eq_map (s : Bytes) :
    ∃ r, parseContentLengthStrict s = .ok r ∧ HttpServer.parseContentLengthStrict s = toContentLength r :=
      by
  rw [parseContentLengthStrict, HttpServer.parseContentLengthStrict]
  by_cases hs : s = []
  · rw [if_pos hs, if_pos hs]
    exact ⟨.invalid, rfl, rfl⟩
  · rw [if_neg hs, if_neg hs]
    exact digitLoop_eq_contentLengthLoop (Nat.zero_le _) s

end NumberParsers
