import LibCore.HttpHeaders
import LibCore.Snmp

/-!
# Sending a Response

`send_internal` of `http_message.c` with `write_hdr_cb` and `Http_statusMessage`: what is appended to
a connection for a response with a text or JSON body. The head is written into `head_buf[4096]` line
by line. A line that does not fit ends the function, is left out, or makes the response a fixed 500,
as the source has it at that line.

## Main results

* `sendInternal_eq`: what is appended, from the lines of the head alone.
* `send_internal_iff`: it is a well-formed response exactly when the lines do not add up to 4094 or
  4095 bytes.
-/

open CString HttpServer

namespace HttpSend

/-! ### The function -/

/-- `Http_statusMessage`. -/
def statusMessage (code : ℤ) : Bytes :=
  match code with
  | 101 => ascii "Switching Protocols".toList
  | 200 => ascii "OK".toList
  | 201 => ascii "Created".toList
  | 204 => ascii "No Content".toList
  | 301 => ascii "Moved Permanently".toList
  | 302 => ascii "Found".toList
  | 400 => ascii "Bad Request".toList
  | 401 => ascii "Unauthorized".toList
  | 403 => ascii "Forbidden".toList
  | 404 => ascii "Not Found".toList
  | 500 => ascii "Internal Server Error".toList
  | _ => ascii "Unknown".toList

/-- What `send_internal` reads of a response that is bound to a connection: whether its socket is
open, and whether the request was a `HEAD`. -/
structure HttpResponse where
  isOpen : Bool
  isHead : Bool
  statusCode : ℤ
  headers : HashMap Bytes

/-- `"HTTP/1.1 %d %s"`. -/
def statusLine (code : ℤ) : Bytes :=
  ascii "HTTP/1.1 ".toList ++ Snmp.signedDecimal code ++ 0x20 :: statusMessage code

/-- `"%s: %s"`. -/
def headerLine (name value : Bytes) : Bytes := name ++ colonByte :: 0x20 :: value

/-- The name `Content-Type`. -/
def contentTypeName : Bytes := ascii "Content-Type".toList

/-- `"Content-Length: %zu"`. -/
def contentLengthLine (n : ℕ) : Bytes := headerLine (ascii "Content-Length".toList) (Radix.decimal n)

/-- `sizeof(head_buf)`. -/
def headCap : ℕ := 4096

/-- `snprintf` of a line behind what is in `head_buf`: `none` when the line with its end and a NUL do not
fit. -/
def appendLine (buf line : Bytes) : Option Bytes :=
  if (line ++ crlf).length ≥ headCap - buf.length then none else some (buf ++ (line ++ crlf))

/-- `HdrCtx`: what `buf` holds up to `len`. -/
structure HdrCtx where
  buf : Bytes
  overflow : Bool

/-- `write_hdr_cb`. -/
def writeHdrCb (k v : Bytes) (ctx : HdrCtx) : Bool × HdrCtx :=
  if ctx.overflow then (false, ctx)
  else
    match appendLine ctx.buf (headerLine k v) with
    | none => (false, { ctx with overflow := true })
    | some buf => (true, { ctx with buf := buf })

/-- `err500`. -/
def err500 : Bytes :=
  ascii "HTTP/1.1 500 Internal Server Error".toList ++ crlf ++
    ascii "Content-Length: 0".toList ++ crlf ++ ascii "Connection: close".toList ++ crlf ++ crlf

/-- The `Content-Type` that is added: the caller's, unless the response has one. -/
def addedType (res : HttpResponse) (ctype : Option Bytes) : Option Bytes :=
  if (res.headers.get contentTypeName).isSome ||
      (res.headers.get (ascii "content-type".toList)).isSome then none
  else ctype

/-- What is shown of the body. -/
def shown (res : HttpResponse) (body : Bytes) : Bytes := if res.isHead then [] else body

/-- `send_internal`: the data of its calls of `HttpConnection_append_send`, in order. -/
def sendInternal (res : HttpResponse) (ctype : Option Bytes) (body : Bytes) : List Bytes :=
  if !res.isOpen then []
  else
    match appendLine [] (statusLine res.statusCode) with
    | none => []
    | some head =>
        match (addedType res ctype).elim (some head)
            fun t => appendLine head (headerLine contentTypeName t) with
        | none => []
        | some head =>
            let head := (appendLine head (contentLengthLine body.length)).getD head
            let ctx := res.headers.iterate writeHdrCb ⟨head, false⟩
            if ctx.overflow then [err500]
            else
              -- the blank line is left out when it does not fit
              let head := (appendLine ctx.buf []).getD ctx.buf
              if shown res body = [] then [head] else [head, shown res body]

/-! ### Well-formed responses -/

/-- Lines, each with its end. -/
def crlfLines (lines : List Bytes) : Bytes := lines.flatMap (· ++ crlf)

/-- A text within a line. -/
def NoCrlf (s : Bytes) : Prop := cr ∉ s ∧ lf ∉ s

/-- A status line. -/
def IsStatusLine (s : Bytes) : Prop :=
  NoCrlf s ∧ ∃ (code : ℤ) (reason : Bytes),
    s = ascii "HTTP/1.1 ".toList ++ Snmp.signedDecimal code ++ 0x20 :: reason

/-- A header line. -/
def IsHeaderLine (s : Bytes) : Prop := NoCrlf s ∧ colonByte ∈ s

/-- A well-formed response with a body of which `visible` is sent: a status line, header lines with the length of
the body among them, a blank line and what is sent of the body. -/
def WellFormed (body visible out : Bytes) : Prop :=
  ∃ status headers, IsStatusLine status ∧ (∀ l ∈ headers, IsHeaderLine l) ∧
    contentLengthLine body.length ∈ headers ∧
    out = crlfLines (status :: headers) ++ crlf ++ visible

/-! ### The lines of the head -/

/-- The lines of the head that are written: the status, the types, the length and the header of the
response. -/
def headLines (res : HttpResponse) (ctype : Option Bytes) (body : Bytes) : List Bytes :=
  statusLine res.statusCode :: ((addedType res ctype).toList.map (headerLine contentTypeName) ++
    contentLengthLine body.length :: res.headers.entries.map fun e => headerLine e.1 e.2)

/-- The bytes of these lines. -/
def headText (res : HttpResponse) (ctype : Option Bytes) (body : Bytes) : Bytes :=
  crlfLines (headLines res ctype body)

@[simp] theorem crlfLines_nil : crlfLines [] = [] := rfl

@[simp] theorem crlfLines_cons (line : Bytes) (lines : List Bytes) :
    crlfLines (line :: lines) = line ++ crlf ++ crlfLines lines := rfl

@[simp] theorem crlfLines_append (lines lines' : List Bytes) :
    crlfLines (lines ++ lines') = crlfLines lines ++ crlfLines lines' := List.flatMap_append

@[simp] theorem length_crlf : crlf.length = 2 := rfl

theorem appendLine_of_lt {buf line : Bytes} (h : (buf ++ (line ++ crlf)).length < headCap) :
    appendLine buf line = some (buf ++ (line ++ crlf)) := by
  rw [List.length_append] at h
  rw [appendLine, if_neg (by omega)]

theorem appendLine_of_le {buf line : Bytes} (h : headCap ≤ (buf ++ (line ++ crlf)).length) :
    appendLine buf line = none := by
  rw [List.length_append] at h
  rw [appendLine, if_pos (by omega)]

/-- The blank line, when there is room for it. -/
theorem getD_appendLine_nil (buf : Bytes) :
    (appendLine buf []).getD buf = buf ++ if buf.length + 2 < headCap then crlf else [] := by
  rcases lt_or_ge (buf ++ ([] ++ crlf)).length headCap with hlt | hge
  · rw [appendLine_of_lt hlt, if_pos (by simpa using hlt)]
    rfl
  · rw [appendLine_of_le hge, if_neg (by simpa using hge), List.append_nil]
    rfl

/-- The header of the response, when it fits. -/
theorem iterateFrom_of_lt {es : List (Bytes × Bytes)} {buf : Bytes}
    (h : (buf ++ crlfLines (es.map fun e => headerLine e.1 e.2)).length < headCap) :
    HashMap.iterateFrom writeHdrCb es ⟨buf, false⟩ =
      ⟨buf ++ crlfLines (es.map fun e => headerLine e.1 e.2), false⟩ := by
  induction es generalizing buf with
  | nil => simp [HashMap.iterateFrom]
  | cons e es ih =>
      rw [List.map_cons, crlfLines_cons, ← List.append_assoc] at h ⊢
      have hline : (buf ++ (headerLine e.1 e.2 ++ crlf)).length < headCap := by
        rw [List.length_append] at h
        omega
      rw [HashMap.iterateFrom, writeHdrCb, appendLine_of_lt hline]
      exact ih h

/-- The first header line that does not fit ends the walk. -/
theorem iterateFrom_of_le {es : List (Bytes × Bytes)} {buf : Bytes} (hbuf : buf.length < headCap)
    (h : headCap ≤ (buf ++ crlfLines (es.map fun e => headerLine e.1 e.2)).length) :
    (HashMap.iterateFrom writeHdrCb es ⟨buf, false⟩).overflow = true := by
  induction es generalizing buf with
  | nil =>
      rw [List.map_nil, crlfLines_nil, List.append_nil] at h
      omega
  | cons e es ih =>
      rw [List.map_cons, crlfLines_cons, ← List.append_assoc] at h
      rw [HashMap.iterateFrom, writeHdrCb]
      rcases lt_or_ge (buf ++ (headerLine e.1 e.2 ++ crlf)).length headCap with hlt | hge
      · rw [appendLine_of_lt hlt]
        exact ih hlt h
      · rw [appendLine_of_le hge]
        rfl

/-! ### What is appended -/

/-- The types of the callers: `sendText`, `sendJson`, and the two without a body. -/
def callerTypes : List (Option Bytes) :=
  [some (ascii "text/plain; charset=utf-8".toList), some (ascii "application/json".toList), none]

theorem statusMessage_spec (code : ℤ) :
    NoCrlf (statusMessage code) ∧ (statusMessage code).length ≤ 21 := by
  rw [statusMessage.eq_def]
  split <;> exact ⟨⟨by decide, by decide⟩, by decide⟩

section Bounds

variable {res : HttpResponse} {ctype : Option Bytes} {body : Bytes}

theorem length_statusLine_le {code : ℤ} (h : -2 ^ 31 ≤ code ∧ code < 2 ^ 31) :
    (statusLine code).length ≤ 42 := by
  have hmessage := (statusMessage_spec code).2
  have hdecimal : (Radix.decimal code.natAbs).length ≤ 10 := Radix.length_decimal_le (by omega) (by omega)
  have hcode : (Snmp.signedDecimal code).length ≤ 11 := by
    rw [Snmp.signedDecimal]
    split_ifs
    · rw [List.length_cons]
      omega
    · omega
  have hversion : (ascii "HTTP/1.1 ".toList).length = 9 := by decide
  rw [statusLine, List.length_append, List.length_append, List.length_cons, hversion]
  omega

theorem length_type_le (h : ctype ∈ callerTypes) : ∀ t ∈ addedType res ctype,
    NoCrlf t ∧ t.length ≤ 25 := by
  have hall : ∀ c ∈ callerTypes, ∀ t ∈ c, NoCrlf t ∧ t.length ≤ 25 := by
    intro c hc t ht
    simp only [callerTypes, List.mem_cons, List.not_mem_nil, or_false] at hc
    rcases hc with rfl | rfl | rfl
    · obtain rfl := Option.some.inj ht
      exact ⟨⟨by decide +kernel, by decide +kernel⟩, by decide +kernel⟩
    · obtain rfl := Option.some.inj ht
      exact ⟨⟨by decide +kernel, by decide +kernel⟩, by decide +kernel⟩
    · cases ht
  intro t ht
  rw [addedType] at ht
  split_ifs at ht
  · cases ht
  · exact hall ctype h t ht

theorem length_contentLengthLine_le {n : ℕ} (h : n < 2 ^ 64) : (contentLengthLine n).length ≤ 36 := by
  have hdecimal : (Radix.decimal n).length ≤ 20 := Radix.length_decimal_le (by omega) (by omega)
  have hname : (ascii "Content-Length".toList).length = 14 := by decide
  rw [contentLengthLine, headerLine, List.length_append, List.length_cons, List.length_cons, hname]
  omega

/-- The lines before the header of the response. -/
def firstText (res : HttpResponse) (ctype : Option Bytes) (body : Bytes) : Bytes :=
  statusLine res.statusCode ++ crlf ++ crlfLines ((addedType res ctype).toList.map (headerLine contentTypeName)) ++
    (contentLengthLine body.length ++ crlf)

theorem headText_eq (res : HttpResponse) (ctype : Option Bytes) (body : Bytes) :
    headText res ctype body = firstText res ctype body ++
      crlfLines (res.headers.entries.map fun e => headerLine e.1 e.2) := by
  simp [headText, headLines, firstText]

/-- The lines before the header of the response are short, and so each of them fits. -/
theorem sendInternal_eq_iterate (hopen : res.isOpen = true)
    (hcode : -2 ^ 31 ≤ res.statusCode ∧ res.statusCode < 2 ^ 31) (hctype : ctype ∈ callerTypes)
    (hbody : body.length < 2 ^ 64) :
    (firstText res ctype body).length < headCap ∧
      sendInternal res ctype body =
        let ctx := res.headers.iterate writeHdrCb ⟨firstText res ctype body, false⟩
        if ctx.overflow then [err500]
        else
          let head := (appendLine ctx.buf []).getD ctx.buf
          if shown res body = [] then [head] else [head, shown res body] := by
  have hstatus := length_statusLine_le hcode
  have hlength := length_contentLengthLine_le hbody
  have htype : (crlfLines ((addedType res ctype).toList.map (headerLine contentTypeName))).length ≤
      41 := by
    have hname : contentTypeName.length = 12 := by decide
    cases ht : addedType res ctype with
    | none => simp
    | some t =>
        have hle := (length_type_le hctype t ht).2
        simp [headerLine, hname]
        omega
  have hfirst : (firstText res ctype body).length < headCap := by
    simp only [firstText, List.length_append, length_crlf, headCap]
    omega
  refine ⟨hfirst, ?_⟩
  have hline₁ : appendLine [] (statusLine res.statusCode) = some (statusLine res.statusCode ++ crlf) :=
    appendLine_of_lt (by
      rw [List.nil_append, List.length_append, length_crlf, headCap]
      omega)
  have hline₂ : (addedType res ctype).elim (some (statusLine res.statusCode ++ crlf))
      (fun t => appendLine (statusLine res.statusCode ++ crlf) (headerLine contentTypeName t)) =
        some (statusLine res.statusCode ++ crlf ++
          crlfLines ((addedType res ctype).toList.map (headerLine contentTypeName))) := by
    cases ht : addedType res ctype with
    | none => simp
    | some t =>
        rw [ht] at htype
        simp only [Option.toList_some, List.map_cons, List.map_nil, crlfLines_cons, crlfLines_nil,
          List.append_nil] at htype ⊢
        refine appendLine_of_lt ?_
        simp only [List.length_append, length_crlf, headCap] at htype ⊢
        omega
  have hline₃ := appendLine_of_lt hfirst
  rw [sendInternal, hopen, hline₁]
  simp only [hline₂, hline₃, Option.getD_some]
  rfl

/-- **What is appended** is decided by the length of all lines. -/
theorem sendInternal_eq (hopen : res.isOpen = true)
    (hcode : -2 ^ 31 ≤ res.statusCode ∧ res.statusCode < 2 ^ 31) (hctype : ctype ∈ callerTypes)
    (hbody : body.length < 2 ^ 64) :
    (sendInternal res ctype body).flatten =
      if headCap ≤ (headText res ctype body).length then err500
      else headText res ctype body ++
        (if (headText res ctype body).length + 2 < headCap then crlf else []) ++ shown res body := by
  obtain ⟨hfirst, heq⟩ := sendInternal_eq_iterate hopen hcode hctype hbody
  rw [heq, HashMap.iterate]
  rcases lt_or_ge (headText res ctype body).length headCap with hlt | hge
  · have hlt' := hlt
    rw [headText_eq] at hlt'
    have hpieces : ∀ head : Bytes,
        (if shown res body = [] then [head] else [head, shown res body]).flatten =
          head ++ shown res body := by
      intro head
      split_ifs with h
      · simp [h]
      · simp
    rw [if_neg hlt.not_ge, iterateFrom_of_lt hlt', ← headText_eq]
    simp only [Bool.false_eq_true, if_false, hpieces, getD_appendLine_nil]
  · rw [if_pos hge]
    rw [headText_eq] at hge
    simp only [iterateFrom_of_le hfirst hge, if_true, List.flatten_cons, List.flatten_nil,
      List.append_nil]

end Bounds

/-! ### When it is well formed -/

/-- Lines of a text do not end in a blank one. -/
theorem crlfLines_ne_append_crlf {lines lines' : List Bytes} (hne : lines ≠ [])
    (hlines : ∀ l ∈ lines, l ≠ [] ∧ lf ∉ l) (hne' : lines' ≠ []) :
    crlfLines lines ≠ crlfLines lines' ++ crlf := by
  intro heq
  rcases List.eq_nil_or_concat lines with rfl | ⟨front, last, rfl⟩
  · exact hne rfl
  rcases List.eq_nil_or_concat lines' with rfl | ⟨front', last', rfl⟩
  · exact hne' rfl
  simp only [List.concat_eq_append, crlfLines_append, crlfLines_cons, crlfLines_nil, List.append_nil,
    ← List.append_assoc, List.append_cancel_right_eq] at heq
  obtain ⟨hlast, hlf⟩ := hlines last (by simp)
  obtain ⟨c, hc⟩ := Option.isSome_iff_exists.mp (List.getLast?_isSome.mpr hlast)
  have hend := congrArg List.getLast? heq
  rw [List.getLast?_append, List.getLast?_append, hc, Option.some_or,
    show crlf.getLast? = some lf from rfl, Option.some_or] at hend
  exact hlf (Option.some.inj hend ▸ List.mem_of_getLast? hc)

/-- What is appended without its blank line is not well formed. -/
theorem not_wellFormed_of_no_blank {lines : List Bytes} (hne : lines ≠ [])
    (hlines : ∀ l ∈ lines, l ≠ [] ∧ lf ∉ l) (body visible : Bytes) :
    ¬WellFormed body visible (crlfLines lines ++ visible) := by
  rintro ⟨status, headers, -, -, -, heq⟩
  exact crlfLines_ne_append_crlf hne hlines (List.cons_ne_nil status headers)
    (List.append_cancel_right heq)

theorem noCrlf_append {s t : Bytes} : NoCrlf (s ++ t) ↔ NoCrlf s ∧ NoCrlf t := by
  simp only [NoCrlf, List.mem_append]
  tauto

theorem noCrlf_cons {c : UInt8} {s : Bytes} : NoCrlf (c :: s) ↔ (c ≠ cr ∧ c ≠ lf) ∧ NoCrlf s := by
  simp only [NoCrlf, List.mem_cons, eq_comm]
  tauto

theorem noCrlf_decimal (n : ℕ) : NoCrlf (Radix.decimal n) :=
  ⟨fun h => absurd (Radix.isdigit_of_mem_decimal h) (by decide),
    fun h => absurd (Radix.isdigit_of_mem_decimal h) (by decide)⟩

theorem isStatusLine_statusLine (code : ℤ) : IsStatusLine (statusLine code) := by
  have hcode : NoCrlf (Snmp.signedDecimal code) := by
    rw [Snmp.signedDecimal]
    split_ifs
    · exact noCrlf_cons.mpr ⟨by decide, noCrlf_decimal _⟩
    · exact noCrlf_decimal _
  refine ⟨?_, code, statusMessage code, rfl⟩
  rw [statusLine, noCrlf_append, noCrlf_append, noCrlf_cons]
  exact ⟨⟨⟨by decide, by decide⟩, hcode⟩, by decide, (statusMessage_spec code).1⟩

theorem isHeaderLine_headerLine {name value : Bytes} (hname : NoCrlf name) (hvalue : NoCrlf value) :
    IsHeaderLine (headerLine name value) := by
  refine ⟨?_, by simp [headerLine]⟩
  rw [headerLine, noCrlf_append, noCrlf_cons, noCrlf_cons]
  exact ⟨hname, by decide, by decide, hvalue⟩

section Lines

variable {res : HttpResponse} {ctype : Option Bytes} {body : Bytes}

/-- The lines of the head are a status line and header lines. -/
theorem headLines_spec (hctype : ctype ∈ callerTypes)
    (hheaders : ∀ e ∈ res.headers.entries, NoCrlf e.1 ∧ NoCrlf e.2) :
    ∃ headers, headLines res ctype body = statusLine res.statusCode :: headers ∧
      (∀ l ∈ headers, IsHeaderLine l) ∧ contentLengthLine body.length ∈ headers := by
  refine ⟨_, rfl, fun l hl => ?_, by simp⟩
  rcases List.mem_append.mp hl with hl | hl
  · obtain ⟨t, ht, rfl⟩ := List.mem_map.mp hl
    exact isHeaderLine_headerLine ⟨by decide, by decide⟩
      (length_type_le hctype t (by simpa using ht)).1
  · rcases List.mem_cons.mp hl with rfl | hl
    · exact isHeaderLine_headerLine ⟨by decide, by decide⟩ (noCrlf_decimal _)
    · obtain ⟨e, he, rfl⟩ := List.mem_map.mp hl
      exact isHeaderLine_headerLine (hheaders e he).1 (hheaders e he).2

theorem not_wellFormed_headText (hctype : ctype ∈ callerTypes)
    (hheaders : ∀ e ∈ res.headers.entries, NoCrlf e.1 ∧ NoCrlf e.2) :
    ¬WellFormed body (shown res body) (headText res ctype body ++ shown res body) := by
  obtain ⟨headers, hlines, hall, -⟩ := @headLines_spec res ctype body hctype hheaders
  have hstatus := isStatusLine_statusLine res.statusCode
  refine not_wellFormed_of_no_blank (by simp [hlines]) (fun l hl => ?_) body _
  rw [hlines] at hl
  rcases List.mem_cons.mp hl with rfl | hl
  · exact ⟨by simp [statusLine], hstatus.1.2⟩
  · exact ⟨List.ne_nil_of_mem (hall l hl).2, (hall l hl).1.2⟩

/-- With room for one byte or none the blank line is missing. -/
theorem not_proper_of_no_room (hopen : res.isOpen = true)
    (hcode : -2 ^ 31 ≤ res.statusCode ∧ res.statusCode < 2 ^ 31) (hctype : ctype ∈ callerTypes)
    (hheaders : ∀ e ∈ res.headers.entries, NoCrlf e.1 ∧ NoCrlf e.2) (hbody : body.length < 2 ^ 64)
    (hlength : (headText res ctype body).length = 4094 ∨ (headText res ctype body).length = 4095) :
    sendInternal res ctype body ≠ [] ∧
      ¬(WellFormed body (shown res body) (sendInternal res ctype body).flatten ∨
        (sendInternal res ctype body).flatten = err500) := by
  have hcap : headCap = 4096 := rfl
  have heq := sendInternal_eq hopen hcode hctype hbody
  rw [if_neg (by omega), if_neg (by omega), List.append_nil] at heq
  have hlong : 4094 ≤ (sendInternal res ctype body).flatten.length := by
    rw [heq, List.length_append]
    omega
  constructor
  · intro hnil
    rw [hnil, List.flatten_nil, List.length_nil] at hlong
    omega
  · rintro (hwell | herr)
    · exact not_wellFormed_headText hctype hheaders (heq ▸ hwell)
    · have hshort : err500.length = 76 := by decide +kernel
      rw [herr] at hlong
      omega

/-- **A response is well formed**, if anything is appended for it, exactly when its lines do not leave
room for one byte or none in the buffer: whatever the status, the body, the request and the header
without CR and LF are, the appended bytes are then a status line, header lines with the length of the
body, a blank line and the body, which a `HEAD` does not get, or the fixed 500. -/
theorem send_internal_iff (hcode : -2 ^ 31 ≤ res.statusCode ∧ res.statusCode < 2 ^ 31)
    (hctype : ctype ∈ callerTypes)
    (hheaders : ∀ e ∈ res.headers.entries, NoCrlf e.1 ∧ NoCrlf e.2) (hbody : body.length < 2 ^ 64) :
    (sendInternal res ctype body ≠ [] →
      WellFormed body (shown res body) (sendInternal res ctype body).flatten ∨
        (sendInternal res ctype body).flatten = err500) ↔
      (res.isOpen = true →
        (headText res ctype body).length ≠ 4094 ∧ (headText res ctype body).length ≠ 4095) := by
  constructor
  · intro h hopen
    by_contra hroom
    obtain ⟨hne, hnot⟩ :=
      not_proper_of_no_room hopen hcode hctype hheaders hbody (by omega)
    exact hnot (h hne)
  · intro h hne
    have hopen : res.isOpen = true := by
      by_contra hclosed
      simp [sendInternal, hclosed] at hne
    obtain ⟨h4, h5⟩ := h hopen
    have hcap : headCap = 4096 := rfl
    rw [sendInternal_eq hopen hcode hctype hbody]
    rcases lt_or_ge (headText res ctype body).length headCap with hlt | hge
    · left
      rw [if_neg hlt.not_ge, if_pos (by omega)]
      obtain ⟨headers, hlines, hall, hmem⟩ := @headLines_spec res ctype body hctype hheaders
      exact ⟨_, headers, isStatusLine_statusLine _, hall, hmem, by rw [headText, hlines]⟩
    · right
      rw [if_pos hge]

end Lines

/-- A response to a `GET` with one field. -/
def oneField (value : Bytes) : HttpResponse :=
  ⟨true, false, 200, (HashMap.new 16).put (ascii ['a']) value⟩

theorem entries_oneField (value : Bytes) :
    (oneField value).headers.entries = [(ascii ['a'], value)] := rfl

theorem noCrlf_oneField {value : Bytes} (h : NoCrlf value) :
    ∀ e ∈ (oneField value).headers.entries, NoCrlf e.1 ∧ NoCrlf e.2 := by
  rw [entries_oneField]
  simpa using ⟨⟨by decide, by decide⟩, h⟩

theorem length_headText_oneField (value : Bytes) :
    (headText (oneField value) none []).length = 41 + value.length := by
  have htype : addedType (oneField value) none = none := ite_self _
  have hstatus : (statusLine 200).length = 15 := by decide +kernel
  have hlength : (contentLengthLine ([] : Bytes).length).length = 17 := by decide +kernel
  rw [headText, headLines, entries_oneField, htype, show (oneField value).statusCode = 200 from rfl]
  simp only [Option.toList_none, List.map_nil, List.nil_append, List.map_cons, crlfLines_cons,
    crlfLines_nil, List.append_nil, List.length_append, hstatus, hlength, length_crlf, headerLine,
    List.length_cons]
  simp [ascii]
  omega

theorem send_internal_sample :
    WellFormed [] [] (sendInternal (oneField []) none []).flatten ∨
      (sendInternal (oneField []) none []).flatten = err500 :=
  (@send_internal_iff (oneField []) none [] (by decide) (by decide)
    (noCrlf_oneField ⟨by simp, by simp⟩) (by decide)).mpr
    (fun _ => by rw [length_headText_oneField]; decide) (by decide +kernel)

/-- A field of 4053 bytes leaves no room for the blank line. -/
theorem blank_line_missing :
    NoCrlf (List.replicate 4053 0x61) ∧
      sendInternal (oneField (List.replicate 4053 0x61)) none [] ≠ [] ∧
        ¬(WellFormed [] [] (sendInternal (oneField (List.replicate 4053 0x61)) none []).flatten ∨
          (sendInternal (oneField (List.replicate 4053 0x61)) none []).flatten = err500) := by
  have hvalue : NoCrlf (List.replicate 4053 0x61) :=
    ⟨fun h => absurd (List.eq_of_mem_replicate h) (by decide),
      fun h => absurd (List.eq_of_mem_replicate h) (by decide)⟩
  refine ⟨hvalue, not_proper_of_no_room rfl (by decide) (by decide) (noCrlf_oneField hvalue)
    (by decide) (.inl ?_)⟩
  rw [length_headText_oneField, List.length_replicate]

end HttpSend
