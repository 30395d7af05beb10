import LibCore.HttpResponseFraming
import LibCore.HttpSend

/-!
# From the Response of the Server to the Response of the Client

The two ends of the repository meet here: `send_internal` of `http_message.c` writes a response, and
`HttpResponseParser_parse_with_options` of `http_response_parser.c` reads one. The writer puts a head
into a buffer of 4096 bytes, the reader takes lines of at most 4095 bytes and at most 100 fields, and
each has its own idea of when there is a body: the writer leaves it out for a `HEAD`, the reader also
for the statuses 204 and 304.

## Main definitions

* `replyFields`: the fields of a response, in the order in which they are written.
* `Legible`: the responses whose bodies both ends see alike and whose fields can be told apart.

## Main results

* `takes_fields`: a head of fields is read field by field.
* `response_read_back`: status, fields, cookies and body arrive as they were given, and no byte more
  is taken from the connection.
-/

open CString HttpServer HttpTransport

namespace HttpExchange

/-! ### Fields of a head -/

/-- A field as a line. -/
def fieldLine (f : Bytes × Bytes) : Bytes := HttpSend.headerLine f.1 f.2

/-- A name that ends at the colon behind it, and a value, within a line. -/
structure IsField (f : Bytes × Bytes) : Prop where
  name : ∀ c ∈ f.1, c ≠ colonByte
  text : IsText (fieldLine f)

/-- A field as the client keeps it: without the blanks before the value. -/
def trimField (f : Bytes × Bytes) : Bytes × Bytes := (f.1, f.2.dropWhile isspace)

variable {f : Bytes × Bytes} {fs : List (Bytes × Bytes)} {name : Bytes}

theorem memchr_fieldLine (h : IsField f) : memchr colonByte (fieldLine f) = some f.1.length :=
  memchr_append_cons (fun hmem => h.name _ hmem rfl) _

theorem splitField_fieldLine (h : IsField f) :
    HttpResponseParser.splitField (fieldLine f) = some (f.1, 0x20 :: f.2) := by
  rw [HttpResponseParser.splitField, memchr_fieldLine h]
  simp [fieldLine, HttpSend.headerLine]

/-- The values of a name, before blanks are dropped. -/
theorem valuesOf_fieldLine (h : ∀ f ∈ fs, IsField f) :
    HttpResponseParser.valuesOf name (fs.map fieldLine) =
      (fs.filter fun f => HttpResponseParser.isName name f.1).map fun f => 0x20 :: f.2 := by
  induction fs with
  | nil => rfl
  | cons f fs ih =>
      obtain ⟨hf, hfs⟩ := List.forall_mem_cons.mp h
      rw [List.map_cons, HttpResponseParser.valuesOf_cons, ih hfs, List.filter_cons]
      simp only [HttpResponseParser.valuesOf, List.filterMap_cons, List.filterMap_nil,
        splitField_fieldLine hf, List.filter_cons, List.filter_nil]
      split_ifs <;> rfl

theorem dropWhile_blank (value : Bytes) : (0x20 :: value).dropWhile isspace = value.dropWhile isspace := by
  rw [List.dropWhile_cons, if_pos (by decide)]

/-- What a line adds to the fields and the cookies of a head, whatever it does to the lengths. -/
theorem headerStep_fieldLine {st st' : HttpResponseParser.Head} (h : IsField f)
    (hstep : HttpResponseParser.headerStep st (fieldLine f) = some st') :
    st'.headers = st.headers.put f.1 (trimField f).2 ∧
      st'.cookies = st.cookies ++
        if HttpResponseParser.isName HttpResponseParser.setCookieName f.1 then [(trimField f).2] else
          [] := by
  have hkey : (fieldLine f).take f.1.length = f.1 := by simp [fieldLine, HttpSend.headerLine]
  have hval : (fieldLine f).drop (f.1.length + 1) = 0x20 :: f.2 := by
    simp [fieldLine, HttpSend.headerLine]
  simp only [HttpResponseParser.headerStep, memchr_fieldLine h, hkey, hval, dropWhile_blank] at hstep
  -- neither the length nor the encoding touches the maps
  obtain ⟨st₁, hheaders, hcookies, hlast⟩ : ∃ st₁ : HttpResponseParser.Head,
      st₁.headers = st.headers.put f.1 (trimField f).2 ∧
      st₁.cookies = (if HttpResponseParser.isName HttpResponseParser.setCookieName f.1
        then st.cookies ++ [(trimField f).2] else st.cookies) ∧
      (if HttpResponseParser.isName transferEncodingName f.1
        then st₁.addEncoding (trimField f).2 else st₁) = st' := by
    by_cases hlength : HttpResponseParser.isName contentLengthName f.1 = true
    · rw [if_pos hlength] at hstep
      obtain ⟨st₁, hst₁, hst'⟩ := Option.bind_eq_some_iff.mp hstep
      obtain ⟨n, -, rfl⟩ := Option.map_eq_some_iff.mp hst₁
      exact ⟨_, rfl, rfl, Option.some.inj hst'⟩
    · rw [if_neg hlength] at hstep
      exact ⟨_, rfl, rfl, Option.some.inj hstep⟩
  have hkept : st'.headers = st₁.headers ∧ st'.cookies = st₁.cookies := by
    rw [← hlast]
    split_ifs <;> exact ⟨rfl, rfl⟩
  rw [hkept.1, hkept.2, hheaders, hcookies]
  refine ⟨rfl, ?_⟩
  split_ifs
  · rfl
  · rw [List.append_nil]

/-- The fields and the cookies behind the loop over the lines. -/
theorem foldlM_fieldLine (h : ∀ f ∈ fs, IsField f) {st st' : HttpResponseParser.Head}
    (hfold : (fs.map fieldLine).foldlM HttpResponseParser.headerStep st = some st') :
    st'.headers = (fs.map trimField).foldl (fun m f => m.put f.1 f.2) st.headers ∧
      st'.cookies = st.cookies ++ (fs.filter fun f =>
        HttpResponseParser.isName HttpResponseParser.setCookieName f.1).map fun f => (trimField f).2 := by
  induction fs generalizing st with
  | nil =>
      obtain rfl : st = st' := by simpa using hfold
      exact ⟨rfl, (List.append_nil _).symm⟩
  | cons f fs ih =>
      obtain ⟨hf, hfs⟩ := List.forall_mem_cons.mp h
      rw [List.map_cons, List.foldlM_cons] at hfold
      obtain ⟨st₁, hstep, hrest⟩ := Option.bind_eq_some_iff.mp hfold
      obtain ⟨hheaders, hcookies⟩ := headerStep_fieldLine hf hstep
      obtain ⟨hheaders', hcookies'⟩ := ih hfs hrest
      refine ⟨by rw [hheaders', hheaders]; rfl, ?_⟩
      rw [hcookies', hcookies, List.filter_cons, List.append_assoc]
      split_ifs <;> rfl

/-- The lines of some fields. -/
def fieldLines (fs : List (Bytes × Bytes)) : List Line := fs.map fun f => ⟨fieldLine f, false⟩

theorem wire_line (text : Bytes) : Line.wire ⟨text, false⟩ = text ++ crlf := rfl

theorem flatMap_wire_fieldLines (fs : List (Bytes × Bytes)) :
    (fieldLines fs).flatMap Line.wire = HttpSend.crlfLines (fs.map fieldLine) := by
  rw [fieldLines, HttpSend.crlfLines, List.flatMap_map, List.flatMap_map]
  rfl

theorem map_text_fieldLines (fs : List (Bytes × Bytes)) :
    (fieldLines fs).map Line.text = fs.map fieldLine := by
  rw [fieldLines, List.map_map]
  rfl

theorem length_le_crlfLines {line : Bytes} {lines : List Bytes} (h : line ∈ lines) :
    line.length + 2 ≤ (HttpSend.crlfLines lines).length := by
  induction lines with
  | nil => simp at h
  | cons l lines ih =>
      rw [HttpSend.crlfLines_cons, List.length_append, List.length_append, HttpSend.length_crlf]
      rcases List.mem_cons.mp h with rfl | h
      · omega
      · have := ih h
        omega

/-- The lines are within the caps of the client, when there are at most 100 of them. -/
theorem isBlock_fieldLines (h : ∀ f ∈ fs, IsField f)
    (hcount : fs.length ≤ HttpResponseParser.httpMaxHeaderCount)
    (hroom : (HttpSend.crlfLines (fs.map fieldLine)).length < HttpSend.headCap) :
    HttpResponseParser.IsBlock false HttpResponseParser.httpMaxHeaderCount 0 (fieldLines fs) where
  fits := by
    intro l hl
    obtain ⟨f, hf, rfl⟩ := List.mem_map.mp hl
    refine ⟨(h f hf).text, ?_⟩
    have hle := length_le_crlfLines (List.mem_map_of_mem (f := fieldLine) hf)
    rw [wire_line, List.length_append, HttpSend.length_crlf, HttpResponseParser.lineSize]
    rw [HttpSend.headCap] at hroom
    omega
  ne_nil := by
    intro l hl
    obtain ⟨f, -, rfl⟩ := List.mem_map.mp hl
    simp [fieldLine, HttpSend.headerLine]
  ends := fun hfalse => absurd hfalse (by decide)
  count_le := by rwa [fieldLines, List.length_map]
  bytes_le := by
    rw [flatMap_wire_fieldLines, HttpResponseParser.httpMaxHeaderBytes]
    rw [HttpSend.headCap] at hroom
    omega

/-! ### Heads -/

theorem zero_notMem_statusMessage (code : ℤ) : 0 ∉ HttpSend.statusMessage code := by
  rw [HttpSend.statusMessage.eq_def]
  split <;> decide

/-- The status line is one that the client reads. -/
theorem isStatusLine_statusLine (status : ℕ) :
    HttpResponseParser.IsStatusLine status (HttpSend.statusLine status) := by
  refine ⟨[0x31], 0x20 :: HttpSend.statusMessage status, ?_, by simp, by decide +kernel, ?_⟩
  · have hdecimal : Snmp.signedDecimal status = Radix.decimal status := by simp [Snmp.signedDecimal]
    rw [HttpSend.statusLine, hdecimal]
    rfl
  · intro c hc
    obtain rfl : 0x20 = c := by simpa using hc
    decide

theorem isText_statusLine (status : ℕ) : IsText (HttpSend.statusLine status) := by
  obtain ⟨⟨hcr, hlf⟩, -⟩ := HttpSend.isStatusLine_statusLine status
  have hzero : 0 ∉ HttpSend.statusLine status := by
    have hdecimal : Snmp.signedDecimal status = Radix.decimal status := by simp [Snmp.signedDecimal]
    rw [HttpSend.statusLine, hdecimal]
    simp only [List.mem_append, List.mem_cons, not_or]
    exact ⟨⟨by decide, fun h => absurd (Radix.isdigit_of_mem_decimal h) (by decide)⟩, by decide,
      zero_notMem_statusMessage _⟩
  exact fun c hc => ⟨fun h => hzero (h ▸ hc), fun h => hcr (h ▸ hc), fun h => hlf (h ▸ hc)⟩

/-- A head with a status and some fields, as the client sees it. -/
def headOf (status : ℕ) (fs : List (Bytes × Bytes)) : HttpResponseParser.ResponseHead where
  interims := []
  status := status
  line := ⟨HttpSend.statusLine status, false⟩
  fields := fieldLines fs
  bare := false

variable {status n : ℕ} {method : Option Bytes} {body : Bytes}

theorem wire_headOf : (headOf status fs).wire =
    HttpSend.crlfLines (HttpSend.statusLine status :: fs.map fieldLine) ++ crlf := by
  rw [HttpResponseParser.ResponseHead.wire, HttpResponseParser.ResponseHead.block]
  simp only [headOf, flatMap_wire_fieldLines, List.flatMap_nil, List.nil_append, wire_line,
    HttpSend.crlfLines_cons, List.append_assoc]

theorem valid_headOf (hstatus : 200 ≤ status ∧ status < 1000) (hfs : ∀ f ∈ fs, IsField f)
    (hcount : fs.length ≤ HttpResponseParser.httpMaxHeaderCount)
    (hroom : (HttpSend.crlfLines (HttpSend.statusLine status :: fs.map fieldLine)).length < HttpSend.headCap) :
    (headOf status fs).Valid where
  interims := by simp [headOf]
  interims_le := Nat.zero_le _
  status := hstatus
  line := isStatusLine_statusLine status
  fits := by
    refine ⟨isText_statusLine status, ?_⟩
    have hle := length_le_crlfLines
      (List.mem_cons_self (a := HttpSend.statusLine status) (l := fs.map fieldLine))
    rw [headOf, wire_line, List.length_append, HttpSend.length_crlf, HttpResponseParser.lineSize]
    rw [HttpSend.headCap] at hroom
    omega
  fields := by
    refine isBlock_fieldLines hfs hcount ?_
    rw [HttpSend.crlfLines_cons, List.length_append] at hroom
    omega

/-- One length among the fields, and no encoding. -/
structure HasLength (n : ℕ) (fs : List (Bytes × Bytes)) : Prop where
  length : (fs.filter fun f => HttpResponseParser.isName contentLengthName f.1).map Prod.snd =
    [Radix.decimal n]
  encoding : fs.filter (fun f => HttpResponseParser.isName transferEncodingName f.1) = []

theorem isLength_decimal (n : ℕ) : HttpResponseParser.IsLength n (0x20 :: Radix.decimal n) :=
  ⟨[0x20], Radix.decimal n, [], by simp, by decide +kernel, by simp, Radix.decimal_ne_nil n,
    fun _ hc => Radix.isdigit_of_mem_decimal hc, Radix.decimalValue_decimal n⟩

theorem values_headOf (hfs : ∀ f ∈ fs, IsField f) (h : HasLength n fs) :
    (headOf status fs).values contentLengthName = [0x20 :: Radix.decimal n] ∧
      (headOf status fs).values transferEncodingName = [] := by
  simp only [HttpResponseParser.ResponseHead.values, headOf, map_text_fieldLines,
    valuesOf_fieldLine hfs, h.encoding, List.map_nil, and_true]
  have hmap := congrArg (List.map (0x20 :: ·)) h.length
  rwa [List.map_map] at hmap

/-- **A head of fields is read field by field**, with the body of the length it names, unless there is
to be none. -/
theorem takes_fields (hstatus : 200 ≤ status ∧ status < 1000) (hfs : ∀ f ∈ fs, IsField f)
    (hcount : fs.length ≤ HttpResponseParser.httpMaxHeaderCount)
    (hroom : (HttpSend.crlfLines (HttpSend.statusLine status :: fs.map fieldLine)).length < HttpSend.headCap)
    (hlength : HasLength n fs) (hn : n ≤ HttpResponseParser.httpMaxBody)
    (hbody : body.length = if HttpResponseParser.hasBody method status then n else 0) :
    Takes source (HttpResponseParser.parseWithOptions none method)
      (HttpSend.crlfLines (HttpSend.statusLine status :: fs.map fieldLine) ++ crlf ++ body)
      ⟨status, (fs.map trimField).foldl (fun m f => m.put f.1 f.2) (HashMap.new 16),
        (fs.filter fun f => HttpResponseParser.isName HttpResponseParser.setCookieName f.1).map
          fun f => (trimField f).2, body⟩ := by
  have hv := valid_headOf hstatus hfs hcount hroom
  obtain ⟨hvalues, hencodings⟩ : (headOf status fs).values contentLengthName = _ ∧ _ :=
    values_headOf hfs hlength
  have hns : (headOf status fs).lengths = some [n] := by
    have hall : ∀ v ∈ (headOf status fs).values contentLengthName, HttpResponseParser.IsLength n v := by
      rw [hvalues]
      simpa using isLength_decimal n
    rw [HttpResponseParser.lengths_eq hn hall, hvalues]
    rfl
  obtain ⟨st, hfold, htracks⟩ := (HttpResponseParser.foldlM_headerStep HttpResponseParser.tracks_new _).2 _ hns
  have hfold' := hfold
  rw [show (headOf status fs).fields.map Line.text = fs.map fieldLine from map_text_fieldLines fs] at hfold'
  obtain ⟨hheaders, hcookies⟩ := foldlM_fieldLine hfs hfold'
  rw [show HttpResponseParser.Head.new.headers = HashMap.new 16 from rfl] at hheaders
  rw [show HttpResponseParser.Head.new.cookies = [] from rfl, List.nil_append] at hcookies
  rw [← hheaders, ← hcookies, ← wire_headOf, HttpResponseParser.ResponseHead.wire, List.append_assoc]
  refine (HttpResponseParser.parse_leads hv method).trans ?_
  rw [HttpResponseParser.parseFinal]
  refine (HttpResponseParser.takes_headerLoop hv.fields (by simp) hfold).bind ?_
  rw [show ((headOf status fs).status : ℤ) = status from rfl]
  split_ifs with hhas
  · rw [if_pos hhas] at hbody
    rw [← HttpResponseParser.ResponseHead.values, hencodings] at htracks
    have hread := HttpResponseParser.takes_readBody_of_length htracks (by simp) (by simp) hn hbody
    have htakes := hread.bind
      (k := fun body => pure (⟨status, st.headers, st.cookies, body⟩ :
        HttpResponseParser.HttpClientResponse))
      (Takes.pure (S := source) _)
    rwa [List.append_nil] at htakes
  · rw [if_neg hhas] at hbody
    rw [List.length_eq_zero_iff.mp hbody]
    exact Takes.pure _

/-! ### Responses -/

/-- The fields of a response: the type the caller adds, the length, and the header of the response. -/
def replyFields (res : HttpSend.HttpResponse) (ctype : Option Bytes) (body : Bytes) :
    List (Bytes × Bytes) :=
  (HttpSend.addedType res ctype).toList.map (fun t => (HttpSend.contentTypeName, t)) ++
    (ascii "Content-Length".toList, Radix.decimal body.length) :: res.headers.entries

/-- A final status, and a header that a client can tell from the framing: names that stand apart, end at the
colon and are not those of the length and the encoding, and values within their lines. -/
structure Legible (res : HttpSend.HttpResponse) : Prop where
  status : 200 ≤ res.statusCode ∧ res.statusCode < 1000
  represents : ∃ f, res.headers.Represents f
  field : ∀ f ∈ res.headers.entries, IsField f
  short : ∀ f ∈ res.headers.entries, f.1.length < maxKeyLen
  framing : ∀ f ∈ res.headers.entries, HttpResponseParser.isName contentLengthName f.1 = false ∧
    HttpResponseParser.isName transferEncodingName f.1 = false

variable {res : HttpSend.HttpResponse} {ctype : Option Bytes}

theorem headLines_eq_fields : HttpSend.headLines res ctype body =
    HttpSend.statusLine res.statusCode :: (replyFields res ctype body).map fieldLine := by
  simp only [HttpSend.headLines, replyFields, List.map_append, List.map_map, List.map_cons]
  rfl

theorem isField_mk {name value : Bytes} (hname : ∀ c ∈ name, c ≠ colonByte)
    (htext : IsText name) (hvalue : IsText value) : IsField (name, value) where
  name := hname
  text := by
    intro c hc
    rcases List.mem_append.mp hc with hc | hc
    · exact htext c hc
    · rcases List.mem_cons.mp hc with rfl | hc
      · decide
      · rcases List.mem_cons.mp hc with rfl | hc
        · decide
        · exact hvalue c hc

theorem isText_decimal (n : ℕ) : IsText (Radix.decimal n) := fun c hc => by
  have hdigit := Radix.isdigit_of_mem_decimal hc
  refine ⟨?_, ?_, ?_⟩ <;> rintro rfl <;> revert hdigit <;> decide

theorem isText_callerTypes : ∀ c ∈ HttpSend.callerTypes, ∀ t ∈ c, IsText t := by
  intro c hc t ht
  simp only [HttpSend.callerTypes, List.mem_cons, List.not_mem_nil, or_false] at hc
  rcases hc with rfl | rfl | rfl
  · obtain rfl := Option.some.inj ht
    unfold IsText
    decide +kernel
  · obtain rfl := Option.some.inj ht
    unfold IsText
    decide +kernel
  · cases ht

theorem addedType_eq_some {t : Bytes} (ht : HttpSend.addedType res ctype = some t) :
    ctype = some t ∧ res.headers.get HttpSend.contentTypeName = none := by
  rw [HttpSend.addedType] at ht
  split_ifs at ht with h
  rw [Bool.or_eq_true, not_or, Option.not_isSome_iff_eq_none] at h
  exact ⟨ht, h.1⟩

theorem mem_replyFields {f : Bytes × Bytes} (hf : f ∈ replyFields res ctype body) :
    (f.1 = HttpSend.contentTypeName ∧ ctype = some f.2 ∧
        res.headers.get HttpSend.contentTypeName = none) ∨
      f = (ascii "Content-Length".toList, Radix.decimal body.length) ∨ f ∈ res.headers.entries := by
  rcases List.mem_append.mp hf with hf | hf
  · obtain ⟨t, ht, rfl⟩ := List.mem_map.mp hf
    exact .inl ⟨rfl, addedType_eq_some (by simpa using ht)⟩
  · exact .inr (List.mem_cons.mp hf)

theorem Legible.isField (h : Legible res) (hctype : ctype ∈ HttpSend.callerTypes) :
    ∀ f ∈ replyFields res ctype body, IsField f := by
  rintro ⟨name, value⟩ hf
  rcases mem_replyFields hf with ⟨rfl, ht, -⟩ | heq | hf
  · refine isField_mk (by decide +kernel) (by unfold IsText; decide +kernel) ?_
    exact isText_callerTypes ctype hctype _ ht
  · rw [heq]
    exact isField_mk (by decide +kernel) (by unfold IsText; decide +kernel) (isText_decimal _)
  · exact h.field _ hf

theorem Legible.short_replyFields (h : Legible res) :
    ∀ f ∈ replyFields res ctype body, f.1.length < maxKeyLen := by
  rintro ⟨name, value⟩ hf
  rcases mem_replyFields hf with ⟨rfl, -, -⟩ | heq | hf
  · exact (by decide : HttpSend.contentTypeName.length < maxKeyLen)
  · rw [heq]
    exact (by decide : (ascii "Content-Length".toList).length < maxKeyLen)
  · exact h.short _ hf

theorem Legible.nodup (h : Legible res) : ((replyFields res ctype body).map Prod.fst).Nodup := by
  obtain ⟨f, hrep⟩ := h.represents
  have hlength : ascii "Content-Length".toList ∉ res.headers.entries.map Prod.fst := by
    intro hmem
    obtain ⟨e, he, heq⟩ := List.mem_map.mp hmem
    have hname := (h.framing e he).1
    rw [heq] at hname
    exact absurd hname (by decide)
  have hrest := List.nodup_cons.mpr ⟨hlength, hrep.keys_nodup⟩
  cases ht : HttpSend.addedType res ctype with
  | none => simpa [replyFields, ht] using hrest
  | some t =>
      have hget := (addedType_eq_some ht).2
      rw [replyFields, ht]
      refine List.nodup_cons.mpr ⟨fun hmem => ?_, hrest⟩
      rcases List.mem_cons.mp hmem with heq | hmem
      · exact absurd heq (by decide : HttpSend.contentTypeName ≠ ascii "Content-Length".toList)
      · obtain ⟨e, he, heq⟩ := List.mem_map.mp hmem
        have hlookup := (hrep.mem_iff e.1 e.2).mp he
        have hshort : HttpSend.contentTypeName.length < maxKeyLen := by decide
        rw [show e.1 = HttpSend.contentTypeName from heq, ← hrep.get hshort, hget] at hlookup
        cases hlookup

theorem Legible.hasLength (h : Legible res) : HasLength body.length (replyFields res ctype body) := by
  have htype : HttpResponseParser.isName contentLengthName HttpSend.contentTypeName = false ∧
      HttpResponseParser.isName transferEncodingName HttpSend.contentTypeName = false := by decide
  have hlength : HttpResponseParser.isName contentLengthName (ascii "Content-Length".toList) = true ∧
      HttpResponseParser.isName transferEncodingName (ascii "Content-Length".toList) = false := by decide
  have hentries : res.headers.entries.filter
        (fun f => HttpResponseParser.isName contentLengthName f.1) = [] ∧
      res.headers.entries.filter (fun f => HttpResponseParser.isName transferEncodingName f.1) = [] := by
    constructor <;> refine List.filter_eq_nil_iff.mpr fun f hf => ?_
    · simp [(h.framing f hf).1]
    · simp [(h.framing f hf).2]
  constructor
  · simp only [replyFields, List.filter_append, List.filter_cons, hlength.1, hentries.1, if_true]
    simp [List.filter_map, Function.comp_def, htype.1]
  · simp only [replyFields, List.filter_append, List.filter_cons, hlength.2, hentries.2]
    simp [List.filter_map, Function.comp_def, htype.2]

/-- What is kept of a body: the length that is read is that of what is shown. -/
theorem length_shown {status : ℤ} (hhead : res.isHead =
    decide (method = some HttpResponseParser.headMethod))
    (hempty : status = 204 ∨ status = 304 → body = []) : (HttpSend.shown res body).length =
      if HttpResponseParser.hasBody method status then body.length else 0 := by
  rw [HttpSend.shown, hhead]
  by_cases hmethod : method = some HttpResponseParser.headMethod
  · simp [HttpResponseParser.hasBody, hmethod]
  · by_cases hstatus : status = 204 ∨ status = 304
    · simp [hempty hstatus]
    · have hhas : HttpResponseParser.hasBody method status = true := by
        simpa [HttpResponseParser.hasBody, hmethod] using hstatus
      simp [hmethod, hhas]

/-- What `err500` says. -/
def errorFields : List (Bytes × Bytes) :=
  [(ascii "Content-Length".toList, Radix.decimal 0), (ascii "Connection".toList, ascii "close".toList)]

/-- The fixed answer is read as an error without a body. -/
theorem takes_err500 (method : Option Bytes) :
    ∃ r, Takes source (HttpResponseParser.parseWithOptions none method) HttpSend.err500 r ∧
      r.statusCode = 500 ∧ r.body = [] := by
  have hfields : ∀ f ∈ errorFields, IsField f := by
    intro f hf
    rcases List.mem_cons.mp hf with rfl | hf
    · exact isField_mk (by decide +kernel) (by unfold IsText; decide +kernel) (isText_decimal 0)
    · rw [List.mem_singleton.mp hf]
      exact isField_mk (by decide +kernel) (by unfold IsText; decide +kernel)
        (by unfold IsText; decide +kernel)
  have hlength : HasLength 0 errorFields := ⟨by decide +kernel, by decide +kernel⟩
  have hbody : ([] : Bytes).length = if HttpResponseParser.hasBody method (500 : ℕ) then 0 else 0 := by
    split_ifs <;> rfl
  have htakes := takes_fields (by decide) hfields (by decide)
    (by decide +kernel : (HttpSend.crlfLines
      (HttpSend.statusLine ((500 : ℕ) : ℤ) :: errorFields.map fieldLine)).length < HttpSend.headCap)
    hlength (Nat.zero_le _) hbody
  have hwire : HttpSend.crlfLines (HttpSend.statusLine ((500 : ℕ) : ℤ) :: errorFields.map fieldLine) ++
    crlf ++ [] =
      HttpSend.err500 := by decide +kernel
  rw [hwire] at htakes
  exact ⟨_, htakes, rfl, rfl⟩

/-- **The response of the server is the response of the client.** Whatever the status, the fields and the
body are, a client that asked with the method the server has seen takes from the connection exactly what
`send_internal` has put there: it finds the status, every field with its value, the cookies and the body that
was shown. A head that does not fit the buffer arrives as the fixed error. A status without a body must
have been given none, for the server would send it. -/
theorem response_read_back (hres : Legible res) (hopen : res.isOpen = true)
    (hctype : ctype ∈ HttpSend.callerTypes)
    (hcount : (replyFields res ctype body).length ≤ HttpResponseParser.httpMaxHeaderCount)
    (hbody : body.length ≤ HttpResponseParser.httpMaxBody)
    (hhead : res.isHead = decide (method = some HttpResponseParser.headMethod))
    (hempty : res.statusCode = 204 ∨ res.statusCode = 304 → body = []) :
    ((HttpSend.headText res ctype body).length + 2 < HttpSend.headCap →
      ∃ r, Takes source (HttpResponseParser.parseWithOptions none method)
          (HttpSend.sendInternal res ctype body).flatten r ∧
        r.statusCode = res.statusCode ∧ r.body = HttpSend.shown res body ∧
        (∀ f ∈ replyFields res ctype body, r.headers.get f.1 = some (f.2.dropWhile isspace)) ∧
        r.cookies = ((replyFields res ctype body).filter fun f =>
          HttpResponseParser.isName HttpResponseParser.setCookieName f.1).map
            fun f => f.2.dropWhile isspace) ∧
    (HttpSend.headCap ≤ (HttpSend.headText res ctype body).length →
      ∃ r, Takes source (HttpResponseParser.parseWithOptions none method)
          (HttpSend.sendInternal res ctype body).flatten r ∧ r.statusCode = 500 ∧ r.body = []) := by
  obtain ⟨hstatus₁, hstatus₂⟩ := hres.status
  obtain ⟨status, hstatus⟩ : ∃ status : ℕ, res.statusCode = status := ⟨res.statusCode.toNat, by omega⟩
  have hsend := HttpSend.sendInternal_eq hopen (by omega) hctype
    (lt_of_le_of_lt hbody (by decide : HttpResponseParser.httpMaxBody < 2 ^ 64))
  rw [hsend]
  constructor
  · intro hroom
    rw [if_neg (by omega), if_pos hroom]
    have htext : HttpSend.headText res ctype body = HttpSend.crlfLines
        (HttpSend.statusLine status :: (replyFields res ctype body).map fieldLine) := by
      rw [HttpSend.headText, headLines_eq_fields, hstatus]
    rw [htext] at hroom ⊢
    refine ⟨_, takes_fields (by omega) (hres.isField hctype) hcount (by omega) hres.hasLength hbody
      (length_shown hhead (by rwa [← hstatus])), hstatus.symm, rfl, ?_, rfl⟩
    have hshort : ∀ f ∈ (replyFields res ctype body).map trimField, f.1.length < maxKeyLen :=
      List.forall_mem_map.mpr hres.short_replyFields
    have hnodup : (((replyFields res ctype body).map trimField).map Prod.fst).Nodup := by
      rw [List.map_map]
      exact hres.nodup
    obtain ⟨f', hrep, hin, -⟩ := (HashMap.represents_new 16).foldl_put hshort hnodup
    intro f hf
    have hmem := List.mem_map_of_mem (f := trimField) hf
    exact (hrep.get (hshort (trimField f) hmem)).trans (hin (trimField f) hmem)
  · intro hfull
    rw [if_pos hfull]
    exact takes_err500 method

/-- A response to a `GET` with one header. -/
def greeting : HttpSend.HttpResponse := HttpSend.oneField (ascii [' ', 'b'])

theorem response_read_back_sample :
    ∃ r, Takes source (HttpResponseParser.parseWithOptions none (some (ascii ['G', 'E', 'T'])))
        (HttpSend.sendInternal greeting (some (ascii "application/json".toList))
          (ascii ['4', '2'])).flatten r ∧
      r.statusCode = 200 ∧ r.body = ascii ['4', '2'] ∧ r.headers.get (ascii ['a']) = some (ascii ['b']) :=
        by
  have hentries : greeting.headers.entries = [(ascii ['a'], ascii [' ', 'b'])] := rfl
  have hrep := (HashMap.represents_new 16).put (k := ascii ['a']) (by decide) (ascii [' ', 'b'])
  have hlegible : Legible greeting := by
    refine ⟨by decide, ⟨_, hrep⟩, ?_, ?_, ?_⟩ <;>
      rw [hentries] <;> intro f hf <;> rw [List.mem_singleton.mp hf]
    · exact isField_mk (by decide +kernel) (by unfold IsText; decide +kernel)
        (by unfold IsText; decide +kernel)
    · exact (by decide : (ascii ['a']).length < maxKeyLen)
    · exact ⟨by decide, by decide⟩
  obtain ⟨r, htakes, hstatus, hbody, hfields, -⟩ := (response_read_back hlegible rfl
    (by simp [HttpSend.callerTypes] : some (ascii "application/json".toList) ∈ HttpSend.callerTypes)
    (by decide +kernel) (by decide : (ascii ['4', '2']).length ≤ HttpResponseParser.httpMaxBody)
    (by decide : greeting.isHead = decide (some (ascii ['G', 'E', 'T']) =
      some HttpResponseParser.headMethod))
    (by decide)).1 (by decide +kernel)
  refine ⟨r, htakes, hstatus, hbody, ?_⟩
  exact hfields (ascii ['a'], ascii [' ', 'b']) (by
    rw [replyFields, hentries]
    simp)

end HttpExchange
