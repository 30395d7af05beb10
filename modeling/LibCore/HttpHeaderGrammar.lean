import LibCore.HttpHeaders

/-!
# The Header Grammar

What `HttpConnection_parse_headers` accepts and what it stores, said of the header lines
alone: the bytes between the request line and the end of the header block, cut at every
CRLF. A line is a field when it is a token, a colon and a value without CR and LF. The block
is accepted when all its lines are fields, none is a `transfer-encoding` and at most one is a
`content-length`.

The parser works on the buffer it edits. What it has written lies before `p`, so the bytes
it still has to scan are the bytes it was given; that is the invariant that connects its
loop to the list of lines.

## Main results

* `headerLine_of_field`, `headerLine_of_not_field`: one round of the loop on one line.
* `headerLoop_spec`: the loop is a fold over the lines.
* `parseHeaders_eq`: what the function returns; the bytes behind the block are untouched.
* `parseHeaders_grammar`: acceptance and the resulting map.
-/

open CString

namespace HttpServer

/-! ### Lines -/

/-- Put a byte in front of the first line. -/
def consHead (c : UInt8) : List Bytes → List Bytes
  | [] => [[c]]
  | line :: lines => (c :: line) :: lines

/-- The lines of a text, cut at every CRLF from the left. -/
def splitCrlf : Bytes → List Bytes
  | [] => [[]]
  | [c] => [[c]]
  | c :: d :: s =>
      if c = cr ∧ d = lf then [] :: splitCrlf s else consHead c (splitCrlf (d :: s))

/-- The header lines of a buffer: what lies between the end of the request line and
`header_end`. -/
def headerLines (buf : Bytes) (headerEnd : ℕ) : List Bytes :=
  match strstr crlf buf with
  | none => []
  | some p =>
      if p ≥ headerEnd then [] else splitCrlf ((buf.drop (p + 2)).take (headerEnd - (p + 2)))

/-- There is always a first line. -/
theorem exists_splitCrlf (r : Bytes) : ∃ line lines, splitCrlf r = line :: lines := by
  rcases r with _ | ⟨c, _ | ⟨d, s⟩⟩
  · exact ⟨_, _, rfl⟩
  · exact ⟨_, _, rfl⟩
  · rw [splitCrlf]
    split_ifs
    · exact ⟨_, _, rfl⟩
    · cases splitCrlf (d :: s) <;> exact ⟨_, _, rfl⟩

/-- The first line ends at the first CRLF, and the lines behind it are those of the rest. -/
theorem splitCrlf_cons {r line : Bytes} {lines : List Bytes} (h : splitCrlf r = line :: lines)
    (hnul : 0 ∉ r) (t : Bytes) :
    strstr crlf (r ++ cr :: lf :: t) = some line.length ∧
      ((lines = [] ∧ r = line) ∨ ∃ r', r = line ++ cr :: lf :: r' ∧ splitCrlf r' = lines) := by
  induction hn : r.length using Nat.strong_induction_on generalizing r line with
  | h n ih =>
      rcases r with _ | ⟨c, _ | ⟨d, s⟩⟩
      · obtain ⟨rfl, rfl⟩ : [] = line ∧ [] = lines := by simpa [splitCrlf] using h
        exact ⟨by simp [strstr, crlf], Or.inl ⟨rfl, rfl⟩⟩
      · obtain ⟨rfl, rfl⟩ : [c] = line ∧ [] = lines := by simpa [splitCrlf] using h
        have hc : c ≠ 0 := by rintro rfl; simp at hnul
        refine ⟨?_, Or.inl ⟨rfl, rfl⟩⟩
        have hnot : ¬(cr = c ∧ lf = cr) := fun h => absurd h.2 (by decide)
        simp [strstr, crlf, hc, hnot]
      · rw [splitCrlf] at h
        split_ifs at h with hcd
        · obtain ⟨rfl, rfl⟩ : [] = line ∧ splitCrlf s = lines := by simpa using h
          obtain ⟨rfl, rfl⟩ := hcd
          exact ⟨by simp [strstr, crlf], Or.inr ⟨s, rfl, rfl⟩⟩
        · obtain ⟨line', lines', hs⟩ := exists_splitCrlf (d :: s)
          rw [hs, consHead] at h
          obtain ⟨rfl, rfl⟩ : c :: line' = line ∧ lines' = lines := by simpa using h
          have hc : c ≠ 0 := by rintro rfl; simp at hnul
          have hnul' : 0 ∉ d :: s := fun hm => hnul (by simp only [List.mem_cons] at hm ⊢; tauto)
          obtain ⟨hfind, hrest⟩ := ih (d :: s).length (by simp [← hn]) hs hnul' rfl
          have hnot : ¬crlf <+: c :: (d :: s ++ cr :: lf :: t) := by
            simpa [crlf, eq_comm] using hcd
          refine ⟨?_, ?_⟩
          · rw [List.cons_append, strstr, if_neg hnot, if_neg hc, hfind]
            rfl
          · rcases hrest with ⟨rfl, hr⟩ | ⟨r', hr, hr'⟩
            · exact Or.inl ⟨rfl, by rw [hr]⟩
            · exact Or.inr ⟨r', by rw [hr]; rfl, hr'⟩

/-! ### Fields -/

/-- A character of an RFC 7230 token: a visible one that is no delimiter. -/
def IsTchar (c : UInt8) : Prop :=
  0x21 ≤ c ∧ c ≤ 0x7E ∧
    c ∉ ascii ['"', '(', ')', ',', '/', ':', ';', '<', '=', '>', '?', '@', '[', '\\', ']'] ++
      [0x7B, 0x7D]

instance : DecidablePred IsTchar := fun c =>
  inferInstanceAs (Decidable (0x21 ≤ c ∧ c ≤ 0x7E ∧
    c ∉ ascii ['"', '(', ')', ',', '/', ':', ';', '<', '=', '>', '?', '@', '[', '\\', ']'] ++
      [0x7B, 0x7D]))

theorem httpIsTchar_iff : ∀ c : UInt8, httpIsTchar c = true ↔ IsTchar c := by
  decide +kernel

/-- A line of the form token, colon, value, without CR and LF. -/
def IsField (line : Bytes) : Prop :=
  (∃ name value, line = name ++ colonByte :: value ∧ name ≠ [] ∧ ∀ c ∈ name, IsTchar c) ∧
    cr ∉ line ∧ lf ∉ line

/-- The name of a field in lower case, and its value without leading blanks and tabs. -/
def fieldOf (line : Bytes) : Bytes × Bytes :=
  ((line.takeWhile (· ≠ colonByte)).map tolower,
    ((line.dropWhile (· ≠ colonByte)).drop 1).dropWhile isBlank)

theorem not_isTchar_colon : ¬IsTchar colonByte := by decide

/-- The colon of a field is the first one. -/
theorem fieldOf_append {name value : Bytes} (hname : ∀ c ∈ name, IsTchar c) :
    fieldOf (name ++ colonByte :: value) = (name.map tolower, value.dropWhile isBlank) := by
  have hne : ∀ c ∈ name, (decide (c ≠ colonByte)) = true := by
    intro c hc
    rw [decide_eq_true_eq]
    rintro rfl
    exact not_isTchar_colon (hname _ hc)
  rw [fieldOf, List.takeWhile_append_of_pos hne, List.dropWhile_append_of_pos hne]
  simp

/-! ### One round of the loop -/

/-- Writing at the end of a prefix. -/
theorem set_append_cons {α : Type} (a : List α) (x y : α) (b : List α) :
    (a ++ x :: b).set a.length y = a ++ y :: b := by
  simp

/-- A C string ends at the NUL behind it. -/
theorem cstr_append_zero {s : Bytes} (hs : 0 ∉ s) (t : Bytes) : cstr (s ++ 0 :: t) = s := by
  have hne : ∀ c ∈ s, (decide (c ≠ 0)) = true := by
    intro c hc
    rw [decide_eq_true_eq]
    rintro rfl
    exact hs hc
  rw [cstr, List.takeWhile_append_of_pos hne]
  simp

/-- A run of a class ends at the latest at a byte outside it. -/
theorem takeWhile_append_cons {p : UInt8 → Bool} {x : UInt8} (hx : p x = false) (a b : Bytes) :
    (a ++ x :: b).takeWhile p = a.takeWhile p := by
  induction a with
  | nil => simp [hx]
  | cons c a ih =>
      by_cases hc : p c = true
      · simp [hc, ih]
      · simp [hc]

theorem tolower_ne_zero : ∀ c : UInt8, c ≠ 0 → tolower c ≠ 0 := by grind [tolower]

theorem zero_notMem_map_tolower {s : Bytes} (hs : 0 ∉ s) : 0 ∉ s.map tolower := by
  intro hm
  obtain ⟨c, hc, h0⟩ := List.mem_map.mp hm
  exact tolower_ne_zero c (by rintro rfl; exact hs hc) h0

/-- What a field does to the flags and the map, given the buffer and the next line. -/
def storeField (st : HeaderState) (field : Bytes × Bytes) (cut : Bytes) (next : ℕ) : LineResult :=
  if field.1 = contentLengthName ∧ st.hasCl then .reject
  else if (st.hasCl || field.1 = contentLengthName) &&
      (st.hasTe || field.1 = transferEncodingName) then .reject
  else .next ⟨cut, next, st.hasCl || field.1 = contentLengthName,
    st.hasTe || field.1 = transferEncodingName, st.headers.put field.1 field.2⟩

/-- A round of the loop on a **field** edits the buffer up to the end of the line and stores
the field. -/
theorem headerLine_of_field {st : HeaderState} {headerEnd : ℕ} {pre line t : Bytes}
    (hbuf : st.buf = pre ++ (line ++ cr :: lf :: t)) (hp : st.p = pre.length) (hnul : 0 ∉ line)
    (hfind : strstr crlf (line ++ cr :: lf :: t) = some line.length)
    (hend : st.p + line.length ≤ headerEnd) (hfield : IsField line) :
    ∃ pre', pre'.length = pre.length + line.length + 2 ∧
      headerLine headerEnd st =
        storeField st (fieldOf line) (pre' ++ t) (st.p + line.length + 2) := by
  obtain ⟨⟨name, value, rfl, hname, htok⟩, hcr, hlf⟩ := hfield
  have hnul_name : 0 ∉ name := fun h => hnul (by simp [h])
  have hnul_value : 0 ∉ value := fun h => hnul (by simp [h])
  have hcolon : colonByte ∉ name := fun h => not_isTchar_colon (htok _ h)
  have hall : name.all httpIsTchar = true := by
    rw [List.all_eq_true]
    intro c hc
    exact (httpIsTchar_iff c).mpr (htok c hc)
  -- the buffer with a NUL at the colon and the name in lower case
  have hset : st.buf.set (st.p + name.length) 0 =
      (pre ++ name) ++ 0 :: (value ++ cr :: lf :: t) := by
    rw [hbuf, hp, ← List.length_append, List.append_assoc, List.cons_append, ← List.append_assoc,
      set_append_cons]
  have hdrop : ((pre ++ name) ++ 0 :: (value ++ cr :: lf :: t)).drop st.p =
      name ++ 0 :: (value ++ cr :: lf :: t) := by
    rw [hp, List.append_assoc, List.drop_left]
  have hnamed : lowerCaseAt st.p (st.buf.set (st.p + name.length) 0) =
      (pre ++ name.map tolower) ++ 0 :: (value ++ cr :: lf :: t) := by
    rw [hset, lowerCaseAt, hdrop, cstr_append_zero hnul_name, hp, ← List.length_append,
      List.drop_left, List.append_assoc pre name, List.take_left]
  have hlow : (pre ++ name.map tolower).length = st.p + name.length := by simp [hp]
  have hdrop_value : ∀ x, ((pre ++ name.map tolower) ++ 0 :: (value ++ x :: lf :: t)).drop
      (st.p + name.length + 1) = value ++ x :: lf :: t := by
    intro x
    rw [← hlow, ← List.drop_drop, List.drop_left]
    rfl
  -- the buffer with a NUL at the end of the line
  have hcut : ((pre ++ name.map tolower) ++ 0 :: (value ++ cr :: lf :: t)).set
      (st.p + (name ++ colonByte :: value).length) 0 =
        (pre ++ name.map tolower) ++ 0 :: (value ++ 0 :: lf :: t) := by
    have hlen : st.p + (name ++ colonByte :: value).length =
        (pre ++ name.map tolower ++ 0 :: value).length := by simp [hp]
    have hassoc : ∀ x, (pre ++ name.map tolower) ++ 0 :: (value ++ x :: lf :: t) =
        (pre ++ name.map tolower ++ 0 :: value) ++ x :: (lf :: t) := by simp
    rw [hassoc, hlen, set_append_cons, ← hassoc]
  have hkey : cstr (((pre ++ name.map tolower) ++ 0 :: (value ++ 0 :: lf :: t)).drop st.p) =
      name.map tolower := by
    rw [hp, List.append_assoc, List.drop_left, cstr_append_zero (zero_notMem_map_tolower hnul_name)]
  have hvalue : cstr (((pre ++ name.map tolower) ++ 0 :: (value ++ 0 :: lf :: t)).drop
      (st.p + name.length + 1 + (value.takeWhile isBlank).length)) = value.dropWhile isBlank := by
    have hsplit : value ++ 0 :: lf :: t =
        value.takeWhile isBlank ++ (value.dropWhile isBlank ++ 0 :: lf :: t) := by
      rw [← List.append_assoc, List.takeWhile_append_dropWhile]
    rw [← List.drop_drop, hdrop_value, hsplit, List.drop_left, cstr_append_zero]
    exact fun h => hnul_value ((List.dropWhile_sublist _).mem h)
  have hname_pos : name.length ≠ 0 := fun h => hname (List.length_eq_zero_iff.mp h)
  refine ⟨(pre ++ name.map tolower) ++ 0 :: (value ++ [0, lf]), by simp; omega, ?_⟩
  have hline : (st.buf.drop st.p).take (name ++ colonByte :: value).length =
      name ++ colonByte :: value := by
    rw [hbuf, hp, List.drop_left, List.take_left]
  have hbuf_drop : st.buf.drop st.p = name ++ colonByte :: value ++ cr :: lf :: t := by
    rw [hbuf, hp, List.drop_left]
  rw [headerLine, hbuf_drop, hfind]
  simp only [← hbuf_drop, hline]
  rw [if_neg (by omega), if_neg (by simp), if_neg (by simp [hcr, hlf]),
    memchr_append_cons hcolon]
  simp only [List.take_left]
  rw [if_neg hname_pos, if_neg (by simp [hall]), hnamed, hdrop_value,
    takeWhile_append_cons (by decide), hcut, hkey, hvalue, storeField, fieldOf_append htok]
  simp only [List.append_assoc, List.cons_append, List.nil_append]

/-- A round of the loop on a line that is **no field** rejects. -/
theorem headerLine_of_not_field {st : HeaderState} {headerEnd : ℕ} {pre line t : Bytes}
    (hbuf : st.buf = pre ++ (line ++ cr :: lf :: t)) (hp : st.p = pre.length) (hne : line ≠ [])
    (hfind : strstr crlf (line ++ cr :: lf :: t) = some line.length) (hfield : ¬IsField line) :
    headerLine headerEnd st = .reject := by
  have hbuf_drop : st.buf.drop st.p = line ++ cr :: lf :: t := by
    rw [hbuf, hp, List.drop_left]
  rw [headerLine, hbuf_drop, hfind]
  simp only [List.take_left]
  have hlen : line.length ≠ 0 := fun h => hne (List.length_eq_zero_iff.mp h)
  split_ifs with h1 h2
  · rfl
  · rfl
  · rw [not_or] at h2
    cases hm : memchr colonByte line with
    | none => rfl
    | some nameLen =>
        obtain ⟨hsplit, -, hlt⟩ := memchr_eq_some hm
        simp only
        by_cases hzero : nameLen = 0
        · rw [if_pos hzero]
        · rw [if_neg hzero, if_pos ?_]
          -- a token in front of the colon would make the line a field
          rw [Bool.not_eq_true', Bool.eq_false_iff]
          intro hall
          refine hfield ⟨⟨_, _, hsplit, ?_, ?_⟩, h2.1, h2.2⟩
          · intro hnil
            have := congrArg List.length hnil
            rw [List.length_take, List.length_nil] at this
            omega
          · intro c hc
            exact (httpIsTchar_iff c).mp (List.all_eq_true.mp hall c hc)

/-! ### The loop -/

/-- Between two line ends a text has no CRLFCRLF before its own end. -/
def OnlyEnd (r t : Bytes) : Prop :=
  ∀ j < r.length + 2, ¬crlfcrlf <+: (cr :: lf :: (r ++ cr :: lf :: t)).drop j

/-- Such a text is not empty. -/
theorem OnlyEnd.ne_nil {r t : Bytes} (h : OnlyEnd r t) : r ≠ [] := by
  rintro rfl
  exact h 0 (by simp) ⟨t, rfl⟩

/-- Nor is its first line. -/
theorem OnlyEnd.line_ne_nil {line r t : Bytes} (h : OnlyEnd (line ++ cr :: lf :: r) t) :
    line ≠ [] := by
  rintro rfl
  exact h 0 (by simp) ⟨r ++ cr :: lf :: t, rfl⟩

/-- What follows the first line is such a text again. -/
theorem OnlyEnd.tail {line r t : Bytes} (h : OnlyEnd (line ++ cr :: lf :: r) t) :
    OnlyEnd r t := by
  intro j hj hpre
  refine h (line.length + 2 + j) (by simp; omega) ?_
  have hdrop : (cr :: lf :: (line ++ cr :: lf :: r ++ cr :: lf :: t)).drop (line.length + 2) =
      cr :: lf :: (r ++ cr :: lf :: t) := by
    simp
  rwa [← List.drop_drop, hdrop]

/-- The names of the fields, in order. -/
def fieldNames (lines : List Bytes) : List Bytes := lines.map fun line => (fieldOf line).1

/-- The tests on names that the loop makes as it goes. -/
def NamesOk : Bool → Bool → List Bytes → Prop
  | _, _, [] => True
  | cl, te, name :: names =>
      ¬(name = contentLengthName ∧ cl) ∧
        ((cl || name = contentLengthName) && (te || name = transferEncodingName)) = false ∧
        NamesOk (cl || name = contentLengthName) (te || name = transferEncodingName) names

/-- The map after the fields of some lines. -/
def storeFields (lines : List Bytes) (headers : HashMap Bytes) : HashMap Bytes :=
  lines.foldl (fun m line => m.put (fieldOf line).1 (fieldOf line).2) headers

/-- The loop is over once `p` has passed the end. -/
theorem headerLoop_of_le {headerEnd : ℕ} {st : HeaderState} (h : headerEnd ≤ st.p) (fuel : ℕ) :
    headerLoop headerEnd fuel st = some st := by
  cases fuel with
  | zero => rfl
  | succ fuel => rw [headerLoop, if_neg (by omega)]

/-- What the loop makes of the lines it still has to read: `none` when one of them is no field
or fails the tests on names, else the state behind the last one. -/
def LoopResult (headerEnd : ℕ) (t : Bytes) (lines : List Bytes) (st : HeaderState)
    (result : Option HeaderState) : Prop :=
  ((∀ line ∈ lines, IsField line) ∧ NamesOk st.hasCl st.hasTe (fieldNames lines) →
    ∃ pre, pre.length = headerEnd + 2 ∧ result =
      some ⟨pre ++ t, headerEnd + 2, st.hasCl || contentLengthName ∈ fieldNames lines,
        st.hasTe || transferEncodingName ∈ fieldNames lines, storeFields lines st.headers⟩) ∧
    (¬((∀ line ∈ lines, IsField line) ∧ NamesOk st.hasCl st.hasTe (fieldNames lines)) →
      result = none)

/-- The text behind the first line: the end of the block, or the next lines. -/
theorem splitCrlf_rest {line : Bytes} {rest : List Bytes} {r t : Bytes}
    (hlines : splitCrlf r = line :: rest) (honly : OnlyEnd r t) (hnul : 0 ∉ r) :
    line ≠ [] ∧ 0 ∉ line ∧ ∃ t', r ++ cr :: lf :: t = line ++ cr :: lf :: t' ∧
      ((rest = [] ∧ t' = t ∧ r.length = line.length) ∨
        ∃ r', t' = r' ++ cr :: lf :: t ∧ splitCrlf r' = rest ∧ OnlyEnd r' t ∧ 0 ∉ r' ∧
          r.length = line.length + 2 + r'.length) := by
  rcases (splitCrlf_cons hlines hnul t).2 with ⟨rfl, rfl⟩ | ⟨r', rfl, hr'⟩
  · exact ⟨honly.ne_nil, hnul, t, rfl, Or.inl ⟨rfl, rfl, rfl⟩⟩
  · refine ⟨honly.line_ne_nil, fun h => hnul (by simp [h]), r' ++ cr :: lf :: t, by simp,
      Or.inr ⟨r', rfl, hr', honly.tail, fun h => hnul (by simp [h]), by simp; omega⟩⟩

/-- The **loop** walks the lines: it rejects at the first line that is no field and at the
first name that fails the tests, and otherwise stores every field. By induction on the lines;
`pre` is what has been edited, the rest of the buffer is as it was. -/
theorem headerLoop_spec {lines : List Bytes} {r t : Bytes} (hlines : splitCrlf r = lines)
    (honly : OnlyEnd r t) (hnul : 0 ∉ r) {st : HeaderState} {pre : Bytes}
    (hbuf : st.buf = pre ++ (r ++ cr :: lf :: t)) (hp : st.p = pre.length) {headerEnd : ℕ}
    (hend : headerEnd = st.p + r.length) {fuel : ℕ} (hfuel : lines.length ≤ fuel) :
    LoopResult headerEnd t lines st (headerLoop headerEnd fuel st) := by
  induction lines generalizing r st pre fuel with
  | nil =>
      obtain ⟨line, lines, h⟩ := exists_splitCrlf r
      rw [h] at hlines
      exact absurd hlines (by simp)
  | cons line rest ih =>
      obtain ⟨fuel, rfl⟩ : ∃ k, fuel = k + 1 := ⟨fuel - 1, by simp at hfuel; omega⟩
      have hpos := List.length_pos_iff.mpr honly.ne_nil
      have hfind := (splitCrlf_cons hlines hnul t).1
      obtain ⟨hne, hnul_line, t', ht', hrest⟩ := splitCrlf_rest hlines honly hnul
      rw [ht'] at hfind hbuf
      have hle : st.p + line.length ≤ headerEnd := by
        rcases hrest with ⟨-, -, hlen⟩ | ⟨r', -, -, -, -, hlen⟩ <;> omega
      rw [headerLoop, if_pos (by omega)]
      by_cases hf : IsField line
      · obtain ⟨pre', hpre', hline⟩ := headerLine_of_field hbuf hp hnul_line hfind hle hf
        have hnames : fieldNames (line :: rest) = (fieldOf line).1 :: fieldNames rest := rfl
        rw [hline, storeField, LoopResult, hnames]
        by_cases hdup : (fieldOf line).1 = contentLengthName ∧ st.hasCl = true
        · rw [if_pos hdup]
          exact ⟨fun h => absurd hdup h.2.1, fun _ => rfl⟩
        · rw [if_neg hdup]
          by_cases hboth : ((st.hasCl || decide ((fieldOf line).1 = contentLengthName)) &&
              (st.hasTe || decide ((fieldOf line).1 = transferEncodingName))) = true
          · rw [if_pos hboth]
            exact ⟨fun h => absurd hboth (by rw [h.2.2.1]; simp), fun _ => rfl⟩
          · rw [if_neg hboth]
            simp only
            generalize hst : HeaderState.mk (pre' ++ t') (st.p + line.length + 2)
              (st.hasCl || decide ((fieldOf line).1 = contentLengthName))
              (st.hasTe || decide ((fieldOf line).1 = transferEncodingName))
              (st.headers.put (fieldOf line).1 (fieldOf line).2) = st'
            -- the rest of the lines, from the state behind this one
            have hcont : LoopResult headerEnd t rest st' (headerLoop headerEnd fuel st') := by
              rcases hrest with ⟨rfl, rfl, hlen⟩ | ⟨r', rfl, hr', honly', hnul', hlen⟩
              · rw [headerLoop_of_le (by rw [← hst]; simp only; omega)]
                refine ⟨fun _ => ⟨pre', by omega, ?_⟩, fun h => absurd ⟨by simp, trivial⟩ h⟩
                rw [← hst]
                simp [fieldNames, storeFields, hend, hlen]
              · have hbuf' : st'.buf = pre' ++ (r' ++ cr :: lf :: t) := by rw [← hst]
                refine ih hr' honly' hnul' hbuf' ?_ ?_ ?_
                · rw [← hst]
                  simp only
                  omega
                · rw [← hst]
                  simp only
                  omega
                · simp only [List.length_cons] at hfuel
                  omega
            have hall : ((∀ l ∈ line :: rest, IsField l) ∧
                NamesOk st.hasCl st.hasTe ((fieldOf line).1 :: fieldNames rest)) ↔
                  (∀ l ∈ rest, IsField l) ∧ NamesOk st'.hasCl st'.hasTe (fieldNames rest) := by
              rw [← hst, NamesOk, Bool.not_eq_true] at *
              simp only [List.forall_mem_cons, hf, true_and, hdup, not_false_eq_true, hboth]
            rw [hall]
            refine ⟨fun h => ?_, hcont.2⟩
            obtain ⟨pre₁, hlen₁, hres⟩ := hcont.1 h
            refine ⟨pre₁, hlen₁, ?_⟩
            rw [hres, ← hst]
            simp [storeFields, Bool.or_assoc, eq_comm]
      · rw [headerLine_of_not_field hbuf hp hne hfind hf]
        exact ⟨fun h => absurd (h.1 line (by simp)) hf, fun _ => rfl⟩

/-- There are no more lines than bytes. -/
theorem length_splitCrlf_le {lines : List Bytes} {r t : Bytes} (hlines : splitCrlf r = lines)
    (honly : OnlyEnd r t) (hnul : 0 ∉ r) : lines.length ≤ r.length := by
  induction lines generalizing r with
  | nil => simp
  | cons line rest ih =>
      obtain ⟨hne, -, t', -, hrest⟩ := splitCrlf_rest hlines honly hnul
      have hpos := List.length_pos_iff.mpr hne
      rcases hrest with ⟨rfl, -, hlen⟩ | ⟨r', -, hr', honly', hnul', hlen⟩
      · rw [List.length_singleton]
        omega
      · have := ih hr' honly' hnul'
        rw [List.length_cons]
        omega

/-! ### The header block in its buffer -/

/-- The parts of a buffer with a header block: the request line with its CRLF, the header
lines, and what follows `header_end`. -/
theorem headerBlock_split {buf : Bytes} {headerEnd : ℕ}
    (hend : strstr crlfcrlf buf = some headerEnd) :
    ∃ p, strstr crlf buf = some p ∧ p ≤ headerEnd ∧
      (p < headerEnd → ∃ pre r t, buf = pre ++ (r ++ cr :: lf :: t) ∧ pre.length = p + 2 ∧
        headerEnd = p + 2 + r.length ∧ OnlyEnd r t ∧ 0 ∉ r ∧
        r = (buf.drop (p + 2)).take (headerEnd - (p + 2))) := by
  have hne₂ : crlf ≠ [] := by simp [crlf]
  have hne₄ : crlfcrlf ≠ [] := by simp [crlfcrlf]
  obtain ⟨⟨u, hu⟩, hmin, hz⟩ := (strstr_eq_some_iff hne₄).mp hend
  have hcrlf : crlf <+: buf.drop headerEnd := ⟨cr :: lf :: u, hu⟩
  -- the first CRLF comes no later than the first CRLFCRLF
  have hex : ∃ p, crlf <+: buf.drop p := ⟨headerEnd, hcrlf⟩
  have hle : Nat.find hex ≤ headerEnd := Nat.find_min' hex hcrlf
  generalize hp : Nat.find hex = p at hle
  have hpfind : crlf <+: buf.drop p := hp ▸ Nat.find_spec hex
  have hfirst : strstr crlf buf = some p := by
    refine (strstr_eq_some_iff hne₂).mpr ⟨hpfind, ?_, ?_⟩
    · intro j hj
      exact Nat.find_min hex (hp ▸ hj)
    · intro c hc
      exact hz c (List.take_subset_take_left buf hle hc)
  refine ⟨p, hfirst, hle, fun hlt => ?_⟩
  obtain ⟨v, hv⟩ := hpfind
  have hge : p + 2 ≤ headerEnd := by
    by_contra hcon
    -- the LF of the first line end would be the CR of the other
    have hnext : buf.drop headerEnd = lf :: v := by
      rw [show headerEnd = p + 1 by omega, ← List.drop_drop, ← hv]
      rfl
    rw [hnext] at hu
    exact absurd (List.cons.inj hu).1 (by decide)
  have hdrop₂ : buf.drop (p + 2) = v := by
    rw [← List.drop_drop, ← hv]
    rfl
  have hdrop₄ : v.drop (headerEnd - (p + 2)) = cr :: lf :: (cr :: lf :: u) := by
    rw [← hdrop₂, List.drop_drop, show p + 2 + (headerEnd - (p + 2)) = headerEnd by omega, ← hu]
    rfl
  have hlen := strstr_add_length_le hne₄ hend
  have hvlen : v.length = buf.length - (p + 2) := by rw [← hdrop₂, List.length_drop]
  have hlen₄ : crlfcrlf.length = 4 := rfl
  refine ⟨buf.take (p + 2), v.take (headerEnd - (p + 2)), cr :: lf :: u, ?_, ?_, ?_, ?_, ?_, ?_⟩
  · rw [← hdrop₄, List.take_append_drop, ← hdrop₂, List.take_append_drop]
  · rw [List.length_take]
    omega
  · rw [List.length_take]
    omega
  · intro j hj
    rw [List.length_take] at hj
    have hblock : cr :: lf :: (v.take (headerEnd - (p + 2)) ++ cr :: lf :: (cr :: lf :: u)) =
        buf.drop p := by
      rw [← hdrop₄, List.take_append_drop, ← hv]
      rfl
    rw [hblock, List.drop_drop]
    exact hmin (p + j) (by omega)
  · intro h0
    refine hz 0 ?_ rfl
    rw [← hdrop₂, List.take_drop, show p + 2 + (headerEnd - (p + 2)) = headerEnd by omega] at h0
    exact List.mem_of_mem_drop h0
  · rw [hdrop₂]

/-! ### Acceptance and the map -/

/-- The header block is acceptable: every line is a field, none is a `transfer-encoding`, and
at most one is a `content-length`. -/
def HeadersOk (lines : List Bytes) : Prop :=
  (∀ line ∈ lines, IsField line) ∧ transferEncodingName ∉ fieldNames lines ∧
    (fieldNames lines).count contentLengthName ≤ 1

/-- The value of the last field with a name. -/
def lastValue (key : Bytes) (lines : List Bytes) : Option Bytes :=
  lines.foldl (fun last line => if (fieldOf line).1 = key then some (fieldOf line).2 else last)
    none

/-- Without a `transfer-encoding`, the tests on names are a bound on the number of
`content-length`s. -/
theorem namesOk_iff {names : List Bytes} (hte : transferEncodingName ∉ names) (cl : Bool) :
    NamesOk cl false names ↔ names.count contentLengthName + cl.toNat ≤ 1 := by
  induction names generalizing cl with
  | nil => cases cl <;> simp [NamesOk]
  | cons name names ih =>
      rw [List.mem_cons, not_or] at hte
      have hname : decide (name = transferEncodingName) = false := by
        simpa using Ne.symm hte.1
      rw [NamesOk, hname, Bool.or_false, Bool.and_false, ih hte.2]
      by_cases hcl : name = contentLengthName
      · cases cl <;> simp [hcl]
      · cases cl <;> simp [hcl]

/-- What `parseHeaders` returns on a buffer whose header block ends at `header_end`. -/
theorem parseHeaders_eq {buf : Bytes} {headerEnd : ℕ}
    (hend : strstr crlfcrlf buf = some headerEnd) (headers : HashMap Bytes) :
    (HeadersOk (headerLines buf headerEnd) → ∃ buf', buf'.length = buf.length ∧
      buf'.drop (headerEnd + 2) = buf.drop (headerEnd + 2) ∧
      parseHeaders buf headerEnd headers =
        some (buf', storeFields (headerLines buf headerEnd) headers)) ∧
      (¬HeadersOk (headerLines buf headerEnd) → parseHeaders buf headerEnd headers = none) := by
  obtain ⟨p, hfirst, hle, hsplit⟩ := headerBlock_split hend
  rw [parseHeaders, headerLines, hfirst]
  by_cases hlt : p < headerEnd
  · obtain ⟨pre, r, t, hbuf, hpre, hlen, honly, hnul, hr⟩ := hsplit hlt
    simp only [not_le.mpr hlt, if_false, ← hr]
    have hrounds := length_splitCrlf_le rfl honly hnul
    have hfuel : (splitCrlf r).length ≤ headerEnd := by omega
    have hstart : (⟨buf, p + 2, false, false, headers⟩ : HeaderState).buf =
        pre ++ (r ++ cr :: lf :: t) := hbuf
    have hloop := headerLoop_spec rfl honly hnul hstart hpre.symm hlen hfuel
    simp only [LoopResult, Bool.false_or] at hloop
    by_cases hok : (∀ line ∈ splitCrlf r, IsField line) ∧
        NamesOk false false (fieldNames (splitCrlf r))
    · obtain ⟨pre', hpre', hres⟩ := hloop.1 hok
      rw [hres]
      simp only [decide_eq_true_eq]
      by_cases hte : transferEncodingName ∈ fieldNames (splitCrlf r)
      · rw [if_pos hte]
        exact ⟨fun h => absurd hte h.2.1, fun _ => rfl⟩
      · rw [if_neg hte]
        have hcount := (namesOk_iff hte false).mp hok.2
        have hOk : HeadersOk (splitCrlf r) := ⟨hok.1, hte, by simpa using hcount⟩
        refine ⟨fun _ => ⟨pre' ++ t, ?_, ?_, rfl⟩, fun h => absurd hOk h⟩
        · rw [hbuf]
          simp
          omega
        · rw [← hpre', List.drop_left, hbuf, ← List.append_assoc, hpre', hlen]
          have : pre.length + r.length + 2 = p + 2 + r.length + 2 := by omega
          rw [← this, ← List.length_append, ← List.drop_drop, List.drop_left]
          rfl
    · rw [hloop.2 hok]
      refine ⟨fun h => absurd ⟨h.1, ?_⟩ hok, fun _ => rfl⟩
      rw [namesOk_iff h.2.1]
      simpa using h.2.2
  · obtain rfl : p = headerEnd := by omega
    simp only [ge_iff_le, le_refl, if_true]
    refine ⟨fun _ => ⟨buf, rfl, rfl, rfl⟩, fun h => absurd ?_ h⟩
    exact ⟨by simp, by simp [fieldNames], by simp [fieldNames]⟩

/-- The stored fields represent the finite map of last values. -/
theorem represents_storeFields {lines : List Bytes} {m : HashMap Bytes} {f : HashMap.FMap Bytes}
    (hm : m.Represents f) (hshort : ∀ line ∈ lines, (fieldOf line).1.length < maxKeyLen) :
    ∃ f', (storeFields lines m).Represents f' ∧ ∀ key, f'.lookup key =
      lines.foldl (fun last line => if (fieldOf line).1 = key then some (fieldOf line).2 else last)
        (f.lookup key) := by
  induction lines generalizing m f with
  | nil => exact ⟨f, hm, fun _ => rfl⟩
  | cons line lines ih =>
      have hput := hm.put (hshort line (by simp)) (fieldOf line).2
      obtain ⟨f', hf', hlookup⟩ := ih hput fun l hl => hshort l (by simp [hl])
      refine ⟨f', hf', fun key => ?_⟩
      rw [hlookup, List.foldl_cons]
      congr 1
      by_cases hkey : (fieldOf line).1 = key
      · rw [if_pos hkey, ← hkey, Finmap.lookup_insert]
      · rw [if_neg hkey, Finmap.lookup_insert_of_ne _ (Ne.symm hkey)]

/-- The **header grammar**: on a buffer whose first CRLFCRLF is at `header_end`, the parser
accepts exactly the acceptable header blocks; and, where the names are shorter than the bytes
the map compares, it leaves the map that sends each name to the value of its last field. -/
theorem parseHeaders_grammar {buf : Bytes} {headerEnd : ℕ}
    (hend : strstr crlfcrlf buf = some headerEnd)
    (hshort : ∀ line ∈ headerLines buf headerEnd, IsField line →
      (fieldOf line).1.length < maxKeyLen) :
    ((parseHeaders buf headerEnd (HashMap.new 32)).isSome = true ↔
        HeadersOk (headerLines buf headerEnd)) ∧
      ∀ buf' headers, parseHeaders buf headerEnd (HashMap.new 32) = some (buf', headers) →
        headers.keys.Nodup ∧
          (∀ key value, (key, value) ∈ headers.entries ↔
            lastValue key (headerLines buf headerEnd) = some value) ∧
          ∀ key, key.length < maxKeyLen →
            headers.get key = lastValue key (headerLines buf headerEnd) := by
  obtain ⟨haccept, hreject⟩ := parseHeaders_eq hend (HashMap.new 32)
  by_cases hok : HeadersOk (headerLines buf headerEnd)
  · obtain ⟨buf₁, -, -, hres⟩ := haccept hok
    refine ⟨by simp [hres, hok], fun buf' headers h => ?_⟩
    obtain ⟨rfl, rfl⟩ : buf₁ = buf' ∧ storeFields (headerLines buf headerEnd) (HashMap.new 32) =
        headers := by simpa [hres] using h
    obtain ⟨f, hf, hlookup⟩ := represents_storeFields (HashMap.represents_new 32)
      fun line hl => hshort line hl (hok.1 line hl)
    have hlast : ∀ key, f.lookup key = lastValue key (headerLines buf headerEnd) := by
      intro key
      rw [hlookup, Finmap.lookup_empty]
      rfl
    refine ⟨hf.keys_nodup, fun key value => ?_, fun key hkey => ?_⟩
    · rw [hf.mem_iff, hlast]
    · rw [hf.get hkey, hlast]
  · rw [hreject hok]
    simp [hok]

/-- Two header lines with one name: the later value is kept. -/
theorem parseHeaders_grammar_sample :
    let buf := ascii ['G', ' ', '/', ' ', 'H', '\r', '\n', 'A', ':', '1', '\r', '\n', 'a', ':',
      ' ', '2', '\r', '\n', '\r', '\n']
    ∃ buf' headers, parseHeaders buf 16 (HashMap.new 32) = some (buf', headers) ∧
      headers.get (ascii ['a']) = some (ascii ['2']) := by
  intro buf
  have hend : strstr crlfcrlf buf = some 16 := rfl
  have hlines : headerLines buf 16 = [ascii ['A', ':', '1'], ascii ['a', ':', ' ', '2']] := rfl
  have hfields : ∀ line ∈ headerLines buf 16, IsField line := by
    rw [hlines]
    simp only [List.forall_mem_cons, List.not_mem_nil, false_implies, implies_true, and_true]
    refine ⟨⟨⟨ascii ['A'], ascii ['1'], ?_⟩, ?_⟩, ⟨⟨ascii ['a'], ascii [' ', '2'], ?_⟩, ?_⟩⟩ <;>
      decide +kernel
  have hnames : fieldNames (headerLines buf 16) = [ascii ['a'], ascii ['a']] := rfl
  obtain ⟨haccept, hmap⟩ := parseHeaders_grammar hend fun line hl _ => by
    have : (fieldOf line).1 ∈ fieldNames (headerLines buf 16) := List.mem_map.mpr ⟨line, hl, rfl⟩
    rw [hnames] at this
    rcases List.mem_cons.mp this with h | h
    · rw [h]
      decide
    · rw [List.mem_singleton.mp h]
      decide
  obtain ⟨⟨buf', headers⟩, hres⟩ := Option.isSome_iff_exists.mp
    (haccept.mpr ⟨hfields, by rw [hnames]; decide, by rw [hnames]; decide⟩)
  refine ⟨buf', headers, hres, ?_⟩
  rw [(hmap buf' headers hres).2.2 _ (by decide), hlines]
  rfl

end HttpServer
