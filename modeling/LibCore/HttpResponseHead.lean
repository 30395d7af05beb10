import LibCore.HttpResponseParser

/-!
# Numbers and Header Blocks of a Response

What the response parser makes of the parts of a head: lengths, chunk sizes and status lines as they
are written, and header blocks line by line. A header loop takes a block that keeps to its caps, and
`headerStep` keeps the lengths and encodings the block announces.

## Main results

* `parseContentLength_eq`, `parseChunkSize_eq`: a numeral is read exactly up to the limit.
* `scanStatus_eq`: the status of a status line.
* `takes_headerLoop`, `refuses_headerLoop`: what a header loop does with a block.
* `foldlM_headerStep`: what the header loop knows after a block.
-/

open CString HttpServer HttpTransport

namespace HttpResponseParser

/-! ### Numerals -/

theorem pushDigit_eq {base digit : ℕ} (hdigit : digit < base) (limit value : ℕ) :
    pushDigit base limit value digit =
      if value * base + digit ≤ limit then some (value * base + digit) else none := by
  have hdiv : limit / base * base + limit % base = limit := Nat.div_add_mod' limit base
  have hmod : limit % base < base := Nat.mod_lt _ (by omega)
  rw [pushDigit]
  rcases lt_trichotomy value (limit / base) with hlt | heq | hgt
  · have hle : (value + 1) * base ≤ limit / base * base := Nat.mul_le_mul_right _ hlt
    rw [add_mul] at hle
    rw [if_neg (by omega), if_pos (by omega)]
  · subst heq
    split_ifs with h₁ h₂ h₂
    · omega
    · rfl
    · rfl
    · omega
  · have hle : (limit / base + 1) * base ≤ value * base := Nat.mul_le_mul_right _ hgt
    rw [add_mul] at hle
    rw [if_pos (by omega), if_neg (by omega)]

theorem le_foldl_digits {base : ℕ} (hbase : 0 < base) (ds : List ℕ) (acc : ℕ) :
    acc ≤ ds.foldl (fun acc d => acc * base + d) acc := by
  rw [Radix.foldl_eq]
  exact le_add_right (Nat.le_mul_of_pos_right _ (by positivity))

/-- A digit loop reads the numeral, if it is within the limit. -/
theorem foldlM_pushDigit {base : ℕ} {ds : List ℕ} (hds : ∀ d ∈ ds, d < base) {limit acc : ℕ}
    (hacc : acc ≤ limit) :
    ds.foldlM (pushDigit base limit) acc =
      if ds.foldl (fun acc d => acc * base + d) acc ≤ limit
      then some (ds.foldl (fun acc d => acc * base + d) acc) else none := by
  induction ds generalizing acc with
  | nil => simp [hacc]
  | cons d ds ih =>
      obtain ⟨hd, hds⟩ := List.forall_mem_cons.mp hds
      rw [List.foldlM_cons, pushDigit_eq hd, List.foldl_cons]
      by_cases hle : acc * base + d ≤ limit
      · rw [if_pos hle]
        exact ih hds hle
      · have hmore := le_foldl_digits (by omega : 0 < base) ds (acc * base + d)
        rw [if_neg hle, if_neg (by omega)]
        rfl

/-- A loop over characters whose rounds are those of a digit loop. -/
theorem foldlM_eq_pushDigit {base limit : ℕ} {push : ℕ → UInt8 → Option ℕ} {digit : UInt8 → ℕ}
    {s : Bytes} (h : ∀ c ∈ s, ∀ value, push value c = pushDigit base limit value (digit c)) (acc : ℕ) :
    s.foldlM push acc = (s.map digit).foldlM (pushDigit base limit) acc := by
  induction s generalizing acc with
  | nil => rfl
  | cons c s ih =>
      obtain ⟨hc, h⟩ := List.forall_mem_cons.mp h
      rw [List.map_cons, List.foldlM_cons, List.foldlM_cons, hc]
      exact congrArg _ (funext (ih h))

theorem dropWhile_eq_nil {p : UInt8 → Bool} {s : Bytes} (hs : ∀ c ∈ s, p c = true) :
    s.dropWhile p = [] := by
  simpa using hs

/-- A number in decimal digits, with blanks around it. -/
def IsLength (n : ℕ) (value : Bytes) : Prop :=
  ∃ before digits after, value = before ++ (digits ++ after) ∧ (∀ c ∈ before, isBlank c = true) ∧
    (∀ c ∈ after, isBlank c = true) ∧ digits ≠ [] ∧ (∀ c ∈ digits, isdigit c = true) ∧
    Radix.decimalValue digits = n

theorem digit_lt : ∀ c : UInt8, isdigit c = true → c.toNat - 0x30 < 10 := by
  decide +kernel

theorem not_isBlank_of_isdigit {c : UInt8} (h : isdigit c = true) : isBlank c = false := by
  grind [isBlank]

theorem not_isdigit_of_isBlank {c : UInt8} (h : isBlank c = true) : isdigit c = false := by
  grind [isBlank]

/-- Where the scans of `parse_content_length` stop on a length. -/
theorem IsLength.scan {n : ℕ} {value : Bytes} (h : IsLength n value) :
    (value.dropWhile isBlank).takeWhile isdigit ≠ [] ∧
      ((value.dropWhile isBlank).dropWhile isdigit).dropWhile isBlank = [] ∧
      Radix.decimalValue ((value.dropWhile isBlank).takeWhile isdigit) = n := by
  obtain ⟨before, digits, after, rfl, hbefore, hafter, hne, hdigits, rfl⟩ := h
  have hhead : ∀ c ∈ (digits ++ after).head?, isBlank c = false := by
    intro c hc
    rw [List.head?_append_of_ne_nil _ hne] at hc
    exact not_isBlank_of_isdigit (hdigits c (List.mem_of_mem_head? hc))
  have htail : ∀ c ∈ after.head?, isdigit c = false := fun c hc =>
    not_isdigit_of_isBlank (hafter c (List.mem_of_mem_head? hc))
  rw [dropWhile_append hbefore hhead, takeWhile_append hdigits htail, dropWhile_append hdigits htail]
  exact ⟨hne, dropWhile_eq_nil hafter, rfl⟩

/-- `parse_content_length` reads a length within the limit and fails on one above it. -/
theorem parseContentLength_eq {n : ℕ} {value : Bytes} (h : IsLength n value) (maxLimit : ℕ) :
    parseContentLength value maxLimit = if n ≤ maxLimit then some n else none := by
  obtain ⟨hne, hafter, rfl⟩ := h.scan
  have hdigits : ∀ c ∈ (value.dropWhile isBlank).takeWhile isdigit, isdigit c = true := fun c hc =>
    List.mem_takeWhile_imp hc
  have hds : ∀ d ∈ ((value.dropWhile isBlank).takeWhile isdigit).map (fun c => c.toNat - 0x30), d < 10 := by
    simpa using fun c hc => digit_lt c (hdigits c hc)
  have hfold := foldlM_pushDigit hds (Nat.zero_le maxLimit)
  rw [List.foldlM_map] at hfold
  simp only [parseContentLength, hafter, hfold]
  rw [Radix.decimalValue, Radix.value]
  simp [hne]

/-- The value of hexadecimal digits. -/
def hexValue (digits : Bytes) : ℕ := Radix.value 16 (digits.map fun c => (hexDigit c).toNat)

/-- What may follow the digits of a chunk size: blanks, then nothing or an extension. -/
def IsExtension (ext : Bytes) : Prop :=
  ∃ blanks more, ext = blanks ++ more ∧ (∀ c ∈ blanks, isBlank c = true) ∧ ∀ c ∈ more.head?, c = 0x3B

/-- A chunk size as it is written. -/
def IsChunkSize (n : ℕ) (text : Bytes) : Prop :=
  ∃ digits ext, text = digits ++ ext ∧ digits ≠ [] ∧ (∀ c ∈ digits, isxdigit c = true) ∧
    IsExtension ext ∧ hexValue digits = n

theorem hexDigit_lt : ∀ c : UInt8, isxdigit c = true → (hexDigit c).toNat < 16 := by
  decide +kernel

theorem not_isChunkStop_of_isxdigit : ∀ c : UInt8, isxdigit c = true → isChunkStop c = false := by
  decide +kernel

theorem isxdigit_ne {c : UInt8} (h : isxdigit c = true) :
    isBlank c = false ∧ c ≠ 0x2B ∧ c ≠ 0x2D ∧ c ≠ 0x78 ∧ c ≠ 0x58 := by
  grind [isBlank]

theorem foldlM_pushHexDigit {digits : Bytes} (h : ∀ c ∈ digits, isxdigit c = true) :
    digits.foldlM pushHexDigit 0 =
      if hexValue digits ≤ sizeMax then some (hexValue digits) else none := by
  have hds : ∀ d ∈ digits.map (fun c => (hexDigit c).toNat), d < 16 := by
    simpa using fun c hc => hexDigit_lt c (h c hc)
  have hpush : ∀ c ∈ digits, ∀ value,
      pushHexDigit value c = pushDigit 16 sizeMax value (hexDigit c).toNat :=
    fun c hc value => if_pos (h c hc)
  rw [foldlM_eq_pushDigit hpush, foldlM_pushDigit hds (Nat.zero_le sizeMax)]
  rfl

/-- Where the scans of `parse_chunk_size` stop on a chunk size, and that its tests in front let it through. -/
theorem IsChunkSize.scan {n : ℕ} {text : Bytes} (h : IsChunkSize n text) :
    ¬text.head?.any (fun c => isBlank c || c = 0x2B || c = 0x2D) = true ∧
      ¬(text.take 2 = [0x30, 0x78] ∨ text.take 2 = [0x30, 0x58]) ∧
      text.takeWhile (!isChunkStop ·) ≠ [] ∧ (∀ c ∈ text.takeWhile (!isChunkStop ·), isxdigit c = true) ∧
      ((text.dropWhile (!isChunkStop ·)).dropWhile isBlank).head?.all (· = 0x3B) = true ∧
      hexValue (text.takeWhile (!isChunkStop ·)) = n := by
  obtain ⟨digits, ext, rfl, hne, hdigits, ⟨blanks, more, rfl, hblanks, hmore⟩, rfl⟩ := h
  -- what follows the digits stops them
  have hstop : ∀ c ∈ (blanks ++ more).head?, isChunkStop c = true := by
    intro c hc
    cases blanks with
    | nil => simp [isChunkStop, hmore c hc]
    | cons b blanks =>
        obtain rfl : b = c := by simpa using hc
        simp [isChunkStop, hblanks b (by simp)]
  have hgo : ∀ c ∈ digits, (!isChunkStop c) = true := fun c hc => by
    simp [not_isChunkStop_of_isxdigit c (hdigits c hc)]
  have hend : ∀ c ∈ (blanks ++ more).head?, (!isChunkStop c) = false := fun c hc => by
    simp [hstop c hc]
  have hblank : ∀ c ∈ more.head?, isBlank c = false := by
    intro c hc
    rw [hmore c hc]
    decide
  have hsign : ¬(digits ++ (blanks ++ more)).head?.any
      (fun c => isBlank c || c = 0x2B || c = 0x2D) = true := by
    obtain ⟨c, cs, rfl⟩ := List.exists_cons_of_ne_nil hne
    have hc := isxdigit_ne (hdigits c (by simp))
    simp [hc]
  have hsecond : ∀ x, (digits ++ (blanks ++ more)).take 2 = [0x30, x] →
      isxdigit x = true ∨ isChunkStop x = true := by
    intro x hx
    obtain ⟨c, cs, rfl⟩ := List.exists_cons_of_ne_nil hne
    have hx : x ∈ (cs ++ (blanks ++ more)).head? := by
      rw [List.cons_append] at hx
      cases hrest : cs ++ (blanks ++ more) with
      | nil => simp [hrest] at hx
      | cons y ys =>
          obtain ⟨-, rfl⟩ : c = 0x30 ∧ y = x := by simpa [hrest] using hx
          rfl
    cases cs with
    | nil => exact .inr (hstop x hx)
    | cons d cs =>
        obtain rfl : d = x := by simpa using hx
        exact .inl (hdigits d (by simp))
  have hprefix : ¬((digits ++ (blanks ++ more)).take 2 = [0x30, 0x78] ∨
      (digits ++ (blanks ++ more)).take 2 = [0x30, 0x58]) := by
    rintro (hx | hx)
    · exact absurd (hsecond _ hx) (by decide)
    · exact absurd (hsecond _ hx) (by decide)
  have hall : more.head?.all (· = 0x3B) = true := by
    cases hm : more.head? with
    | none => rfl
    | some c => simpa using hmore c hm
  rw [takeWhile_append hgo hend, dropWhile_append hgo hend, dropWhile_append hblanks hblank]
  exact ⟨hsign, hprefix, hne, hdigits, hall, rfl⟩

/-- `parse_chunk_size` reads a size up to `SIZE_MAX`. -/
theorem parseChunkSize_eq {n : ℕ} {text : Bytes} (h : IsChunkSize n text) :
    parseChunkSize text = if n ≤ sizeMax then some n else none := by
  obtain ⟨hsign, hprefix, hne, hdigits, hall, rfl⟩ := h.scan
  simp only [parseChunkSize, if_neg hsign, if_neg hprefix, foldlM_pushHexDigit hdigits]
  simp [hne, hall]

/-- A status line: the version, the status and a reason. -/
def IsStatusLine (status : ℕ) (text : Bytes) : Prop :=
  ∃ minor reason, text = versionPrefix ++ (minor ++ 0x20 :: (Radix.decimal status ++ reason)) ∧
    minor ≠ [] ∧ (∀ c ∈ minor, isdigit c = true) ∧ ∀ c ∈ reason.head?, isdigit c = false

/-- `%d` reads digits up to the first character that is none. -/
theorem scanDecimal_eq {digits rest : Bytes} (hne : digits ≠ []) (hdigits : ∀ c ∈ digits, isdigit c = true)
    (hrest : ∀ c ∈ rest.head?, isdigit c = false) :
    scanDecimal (digits ++ rest) = some ((Radix.decimalValue digits : ℤ), rest) := by
  obtain ⟨c, cs, rfl⟩ := List.exists_cons_of_ne_nil hne
  have hc : isdigit c = true := hdigits c (by simp)
  have hspace : isspace c = false := by grind
  have hplus : c ≠ 0x2B ∧ c ≠ 0x2D := by grind
  have hdrop : (c :: cs ++ rest).dropWhile isspace = c :: cs ++ rest := by simp [hspace]
  have hsign : (c :: cs ++ rest).head?.any (fun c => c = 0x2B || c = 0x2D) = false := by simp [hplus]
  simp only [scanDecimal, hdrop, hsign, Bool.false_eq_true, if_false,
    takeWhile_append hdigits hrest, dropWhile_append hdigits hrest, if_neg hne]
  simp [hplus]

/-- `sscanf` reads the status. -/
theorem scanStatus_eq {status : ℕ} {text : Bytes} (h : IsStatusLine status text)
    (hlt : status < 1000) : scanStatus text = some (status : ℤ) := by
  obtain ⟨minor, reason, rfl, hne, hminor, hreason⟩ := h
  have hprefix : versionPrefix.isPrefixOf
      (versionPrefix ++ (minor ++ 0x20 :: (Radix.decimal status ++ reason))) = true := by simp
  have hminor' : scanDecimal (minor ++ 0x20 :: (Radix.decimal status ++ reason)) =
      some ((Radix.decimalValue minor : ℤ), 0x20 :: (Radix.decimal status ++ reason)) := by
    refine scanDecimal_eq hne hminor fun c hc => ?_
    obtain rfl : 0x20 = c := by simpa using hc
    decide
  have hblank : (0x20 :: (Radix.decimal status ++ reason)).dropWhile isspace =
      Radix.decimal status ++ reason := by
    have hhead : ∀ c ∈ (Radix.decimal status ++ reason).head?, isspace c = false := by
      intro c hc
      rw [List.head?_append_of_ne_nil _ (Radix.decimal_ne_nil status)] at hc
      have hdigit := Radix.isdigit_of_mem_decimal (List.mem_of_mem_head? hc)
      grind
    exact dropWhile_append (s := [0x20]) (by simp [isspace]) hhead
  have hstatus : scanDecimal (Radix.decimal status ++ reason) = some ((status : ℤ), reason) := by
    simpa using scanDecimal_eq (Radix.decimal_ne_nil status)
      (fun c hc => Radix.isdigit_of_mem_decimal hc) hreason
  have hstored : storedInt status = status := by
    rw [storedInt, min_eq_right (by omega), max_eq_right (by omega)]
    exact Int.bmod_eq_of_le (by omega) (by omega)
  rw [scanStatus, if_pos hprefix, List.drop_left, hminor', Option.bind_eq_bind, Option.bind_some,
    hblank, hstatus, Option.bind_some, hstored]

/-! ### Header blocks -/

/-- A line that fits `line`. -/
def FitsLine (l : Line) : Prop := IsText l.text ∧ l.wire.length < lineSize

instance (l : Line) : Decidable (FitsLine l) := inferInstanceAs (Decidable (_ ∧ _))

theorem takes_readLine {l : Line} (h : FitsLine l) :
    Takes source readLine l.wire ⟨l.text, l.wire.length⟩ :=
  takes_recvLine h.1 h.2

theorem length_wire (l : Line) : l.wire.length = l.text.length + if l.bare then 1 else 2 := by
  rw [Line.wire, List.length_append]
  split_ifs <;> rfl

/-- Lines that a header loop accepts, when `left` of them may come and `bytes` bytes have. -/
structure IsBlock (strict : Bool) (left bytes : ℕ) (lines : List Line) : Prop where
  fits : ∀ l ∈ lines, FitsLine l
  ne_nil : ∀ l ∈ lines, l.text ≠ []
  ends : strict = true → ∀ l ∈ lines, l.bare = false
  count_le : lines.length ≤ left
  bytes_le : bytes + (lines.flatMap Line.wire).length ≤ httpMaxHeaderBytes

section HeaderLoop

variable {σ : Type} {strict : Bool} {step : σ → Bytes → Option σ} {left bytes : ℕ} {st st' : σ}
  {l : Line} {lines : List Line}

theorem IsBlock.tail (h : IsBlock strict (left + 1) bytes (l :: lines)) :
    IsBlock strict left (bytes + l.wire.length) lines where
  fits := fun m hm => h.fits m (List.mem_cons_of_mem _ hm)
  ne_nil := fun m hm => h.ne_nil m (List.mem_cons_of_mem _ hm)
  ends := fun hs m hm => h.ends hs m (List.mem_cons_of_mem _ hm)
  count_le := Nat.le_of_succ_le_succ h.count_le
  bytes_le := by
    have hle := h.bytes_le
    rw [List.flatMap_cons, List.length_append] at hle
    omega

theorem strict_of_ends {bare : Bool} (h : strict = true → bare = false) (text : Bytes) :
    ¬(strict && (Line.wire ⟨text, bare⟩).length - text.length != 2) = true := by
  cases strict with
  | true => simp [length_wire, h rfl]
  | false => simp

/-- The first round of the loop over a block. -/
theorem headerLoop_round (h : IsBlock strict (left + 1) bytes (l :: lines)) :
    Takes source readLine l.wire ⟨l.text, l.wire.length⟩ ∧
      ¬(strict && l.wire.length - l.text.length != 2) = true ∧ l.text ≠ [] ∧
      ¬l.wire.length > httpMaxHeaderBytes - bytes := by
  have hle := h.bytes_le
  rw [List.flatMap_cons, List.length_append] at hle
  refine ⟨takes_readLine (h.fits l (by simp)), ?_, h.ne_nil l (by simp), by omega⟩
  exact strict_of_ends (fun hs => h.ends hs l (by simp)) l.text

/-- A header loop takes a block up to the empty line. -/
theorem takes_headerLoop (h : IsBlock strict left bytes lines) {bare : Bool}
    (hlast : strict = true → bare = false)
    (hfold : (lines.map Line.text).foldlM step st = some st') :
    Takes source (headerLoop strict step left bytes st)
      (lines.flatMap Line.wire ++ Line.wire ⟨[], bare⟩) st' := by
  induction lines generalizing left bytes st with
  | nil =>
      have hfits : FitsLine ⟨[], bare⟩ := by
        refine ⟨by simp [IsText], ?_⟩
        rw [length_wire, lineSize]
        split_ifs <;> simp
      obtain rfl : st = st' := by simpa using hfold
      rw [headerLoop]
      refine (List.append_nil (Line.wire ⟨[], bare⟩)) ▸ (takes_readLine hfits).bind ?_
      rw [if_neg (strict_of_ends hlast []), if_pos rfl]
      exact Takes.pure st
  | cons l lines ih =>
      obtain ⟨left, rfl⟩ : ∃ n, left = n + 1 := ⟨left - 1, by have := h.count_le; simp at this; omega⟩
      obtain ⟨hread, hstrict, hne, hbytes⟩ := headerLoop_round h
      rw [List.map_cons, List.foldlM_cons] at hfold
      cases hst : step st l.text with
      | none => simp [hst] at hfold
      | some st₁ =>
          rw [hst] at hfold
          rw [headerLoop, List.flatMap_cons, List.append_assoc]
          refine hread.bind ?_
          rw [if_neg hstrict, if_neg hne]
          simp only [if_neg hbytes, hst]
          exact ih h.tail hfold

/-- A header loop rejects in a block as soon as its step does. -/
theorem refuses_headerLoop (h : IsBlock strict left bytes lines)
    (hfold : (lines.map Line.text).foldlM step st = none) :
    Refuses source (headerLoop strict step left bytes st) (lines.flatMap Line.wire) := by
  induction lines generalizing left bytes st with
  | nil => simp at hfold
  | cons l lines ih =>
      obtain ⟨left, rfl⟩ : ∃ n, left = n + 1 := ⟨left - 1, by have := h.count_le; simp at this; omega⟩
      obtain ⟨hread, hstrict, hne, hbytes⟩ := headerLoop_round h
      rw [List.map_cons, List.foldlM_cons] at hfold
      rw [headerLoop, List.flatMap_cons]
      refine hread.bind_refuses ?_
      rw [if_neg hstrict, if_neg hne]
      simp only [if_neg hbytes]
      cases hst : step st l.text with
      | none => exact refuses_reject.append _
      | some st₁ =>
          rw [hst] at hfold
          exact ih h.tail hfold

/-- A loop that only skips lines takes a block. -/
theorem takes_skip (h : IsBlock strict left bytes lines) {bare : Bool}
    (hlast : strict = true → bare = false) :
    Takes source (headerLoop strict (fun _ _ => some ()) left bytes ())
      (lines.flatMap Line.wire ++ Line.wire ⟨[], bare⟩) () :=
  takes_headerLoop h hlast (List.foldlM_pure (m := Option) (f := fun _ _ => ()))

end HeaderLoop

/-! ### Lengths and encodings -/

/-- The name and the value of a field: what stands before and after the first colon. -/
def splitField (text : Bytes) : Option (Bytes × Bytes) :=
  (memchr colonByte text).map fun colon => (text.take colon, text.drop (colon + 1))

/-- The values of the fields of a name, given in lower case. -/
def valuesOf (name : Bytes) (texts : List Bytes) : List Bytes :=
  ((texts.filterMap splitField).filter fun field => isName name field.1).map Prod.snd

/-- What a head knows of the lengths and encodings read so far. -/
structure Tracks (st : Head) (lengths : List ℕ) (encodings : List Bytes) : Prop where
  hasContentLength : st.hasContentLength = !lengths.isEmpty
  contentLength : st.contentLength = lengths.headD 0
  exceeds : st.contentLengthExceedsBodyCap = lengths.any (httpMaxBody < ·)
  conflict : st.contentLengthConflict = lengths.any (· != lengths.headD 0)
  hasTransferEncoding : st.hasTransferEncoding = !encodings.isEmpty
  isChunked : st.isChunked = encodings.any fun v => hasName chunkedName (v.dropWhile isspace)

variable {st : Head} {lengths : List ℕ} {encodings : List Bytes}

theorem tracks_new : Tracks Head.new [] [] := ⟨rfl, rfl, rfl, rfl, rfl, rfl⟩

theorem Tracks.store (h : Tracks st lengths encodings) (headers : HashMap Bytes)
    (cookies : List Bytes) :
    Tracks { st with headers := headers, cookies := cookies } lengths encodings :=
  ⟨h.hasContentLength, h.contentLength, h.exceeds, h.conflict, h.hasTransferEncoding, h.isChunked⟩

theorem Tracks.addLength (h : Tracks st lengths encodings) (n : ℕ) :
    Tracks (st.addLength n) (lengths ++ [n]) encodings where
  hasContentLength := by simp [Head.addLength]
  contentLength := by
    cases lengths with
    | nil => simp [Head.addLength, h.hasContentLength]
    | cons m ms => simp [Head.addLength, h.hasContentLength, h.contentLength]
  exceeds := by simp [Head.addLength, h.exceeds]
  conflict := by
    cases lengths with
    | nil => simp [Head.addLength, h.hasContentLength, h.conflict]
    | cons m ms => simp [Head.addLength, h.hasContentLength, h.conflict, h.contentLength]
  hasTransferEncoding := h.hasTransferEncoding
  isChunked := h.isChunked

theorem Tracks.addEncoding (h : Tracks st lengths encodings) (value : Bytes) :
    Tracks (st.addEncoding (value.dropWhile isspace)) lengths (encodings ++ [value]) where
  hasContentLength := h.hasContentLength
  contentLength := h.contentLength
  exceeds := h.exceeds
  conflict := h.conflict
  hasTransferEncoding := by simp [Head.addEncoding]
  isChunked := by simp [Head.addEncoding, h.isChunked]

/-- One line of the header loop. -/
theorem headerStep_spec (h : Tracks st lengths encodings) (text : Bytes) :
    ((valuesOf contentLengthName [text]).mapM (parseContentLength · sizeMax) = none →
      headerStep st text = none) ∧
    ∀ ns, (valuesOf contentLengthName [text]).mapM (parseContentLength · sizeMax) = some ns →
      ∃ st', headerStep st text = some st' ∧
        Tracks st' (lengths ++ ns) (encodings ++ valuesOf transferEncodingName [text]) := by
  cases hcolon : memchr colonByte text with
  | none =>
      have hvalues : ∀ name, valuesOf name [text] = [] := by
        intro name
        simp [valuesOf, splitField, hcolon]
      simp only [hvalues, headerStep, hcolon]
      refine ⟨by simp, fun ns hns => ⟨st, rfl, ?_⟩⟩
      obtain rfl : ns = [] := by simpa using hns.symm
      simpa using h
  | some colon =>
      have hvalues : ∀ name, valuesOf name [text] =
          if isName name (text.take colon) then [text.drop (colon + 1)] else [] := by
        intro name
        simp only [valuesOf, splitField, hcolon, List.filterMap_cons, List.filterMap_nil,
          Option.map_some, List.filter_cons, List.filter_nil]
        split_ifs <;> rfl
      simp only [hvalues, headerStep, hcolon]
      -- the length first, then the encoding
      have hst := h.store (st.headers.put (text.take colon) ((text.drop (colon + 1)).dropWhile isspace))
        (if isName setCookieName (text.take colon)
          then st.cookies ++ [(text.drop (colon + 1)).dropWhile isspace] else st.cookies)
      have hencoding : ∀ {st lengths}, Tracks st lengths encodings →
          Tracks (if isName transferEncodingName (text.take colon)
              then st.addEncoding ((text.drop (colon + 1)).dropWhile isspace) else st) lengths
            (encodings ++ if isName transferEncodingName (text.take colon)
              then [text.drop (colon + 1)] else []) := by
        intro st lengths h
        split_ifs
        · exact h.addEncoding _
        · simpa using h
      by_cases hlength : isName contentLengthName (text.take colon) = true
      · simp only [if_pos hlength]
        cases hparse : parseContentLength (text.drop (colon + 1)) sizeMax with
        | none => simp [hparse]
        | some n =>
            refine ⟨by simp [hparse], fun ns hns => ⟨_, rfl, ?_⟩⟩
            obtain rfl : [n] = ns := by simpa [hparse] using hns
            exact hencoding (hst.addLength n)
      · simp only [if_neg hlength]
        refine ⟨by simp, fun ns hns => ⟨_, rfl, ?_⟩⟩
        obtain rfl : ns = [] := by simpa using hns.symm
        simpa using hencoding hst

theorem valuesOf_cons (name text : Bytes) (texts : List Bytes) :
    valuesOf name (text :: texts) = valuesOf name [text] ++ valuesOf name texts := by
  simp only [valuesOf, ← List.map_append, ← List.filter_append, ← List.filterMap_append,
    List.singleton_append]

/-- The header loop fails when a length cannot be read, and else knows all lengths and encodings. -/
theorem foldlM_headerStep (h : Tracks st lengths encodings) (texts : List Bytes) :
    ((valuesOf contentLengthName texts).mapM (parseContentLength · sizeMax) = none →
      texts.foldlM headerStep st = none) ∧
    ∀ ns, (valuesOf contentLengthName texts).mapM (parseContentLength · sizeMax) = some ns →
      ∃ st', texts.foldlM headerStep st = some st' ∧
        Tracks st' (lengths ++ ns) (encodings ++ valuesOf transferEncodingName texts) := by
  induction texts generalizing st lengths encodings with
  | nil =>
      refine ⟨by simp [valuesOf], fun ns hns => ⟨st, rfl, ?_⟩⟩
      obtain rfl : ns = [] := by simpa [valuesOf] using hns.symm
      simpa [valuesOf] using h
  | cons text texts ih =>
      rw [valuesOf_cons, valuesOf_cons transferEncodingName, List.mapM_append, List.foldlM_cons]
      obtain ⟨hnone, hsome⟩ := headerStep_spec h text
      cases hfirst : (valuesOf contentLengthName [text]).mapM (parseContentLength · sizeMax) with
      | none => simp [hnone hfirst]
      | some ns =>
          obtain ⟨st', hstep, htracks⟩ := hsome ns hfirst
          obtain ⟨hnone', hsome'⟩ := ih htracks
          rw [hstep, Option.bind_eq_bind, Option.bind_some, Option.bind_eq_bind, Option.bind_some]
          cases hrest : (valuesOf contentLengthName texts).mapM (parseContentLength · sizeMax) with
          | none => simp [hnone' hrest]
          | some ms =>
              obtain ⟨st'', hfold, htracks'⟩ := hsome' ms hrest
              refine ⟨by simp, fun ks hks => ⟨st'', hfold, ?_⟩⟩
              obtain rfl : ns ++ ms = ks := by simpa using hks
              rwa [← List.append_assoc, ← List.append_assoc]

end HttpResponseParser
