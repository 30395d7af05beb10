import LibCore.HttpForms
import LibCore.HttpReplies
import LibCore.HttpSegmentation
import LibCore.HttpTargets

/-!
# From the Request of the Client to the Request of the Server

The other direction of `LibCore.HttpReplies`: `impl_execute` of `http_client.c` writes a request, and
`HttpConnection_on_readable` of `http_server.c` reads one. The client prints each piece of the head
through `tmp[8192]`, the server collects the head in a buffer of the same size, in whatever chunks it
arrives. The client asks for the connection to be closed, and the server closes it.

Multipart bodies and `Expect: 100-continue` are left out: those bodies are sent piece by piece.

## Main definitions

* `Payload`, `Call`: what a request carries, and everything `impl_execute` writes it from.
* `Call.head`, `Call.wire`: the bytes that are sent.
* `Call.Valid`: the calls whose pieces stay within their lines and within the buffers of both ends.

## Main results

* `strstr_lines`, `headerLines_lines`: a head of lines is cut where it was put together.
* `parseBlock_lines`: what the server makes of a request line and some fields.
* `request_arrives`: the server dispatches exactly the request that was meant.
-/

open CString HttpServer HttpTransport

namespace HttpExchange

/-! ### Blocks of lines -/

/-- A line that a block can hold: text, and not an empty one. -/
def IsLine (line : Bytes) : Prop := line ≠ [] ∧ IsText line

variable {line : Bytes} {lines : List Bytes}

theorem IsLine.cr_notMem (h : IsLine line) : cr ∉ line := fun hmem => (h.2 cr hmem).2.1 rfl

theorem IsLine.lf_notMem (h : IsLine line) : lf ∉ line := fun hmem => (h.2 lf hmem).2.2 rfl

/-- A search for something that starts with a CR passes a text. -/
theorem strstr_text_append {text needle : Bytes} (htext : IsText text) (rest : Bytes) :
    strstr (cr :: needle) (text ++ rest) = (strstr (cr :: needle) rest).map (· + text.length) := by
  induction text with
  | nil => simp
  | cons c text ih =>
      obtain ⟨⟨hzero, hcr, -⟩, htext⟩ := List.forall_mem_cons.mp htext
      have hnot : ¬cr :: needle <+: c :: (text ++ rest) := fun h =>
        hcr (List.cons_prefix_cons.mp h).1.symm
      rw [List.cons_append, strstr, if_neg hnot, if_neg hzero, ih htext, Option.map_map]
      rfl

/-- A search for two line ends passes one with a line behind it. -/
theorem strstr_crlf_append (h : IsLine line) (rest : Bytes) :
    strstr crlfcrlf (crlf ++ (line ++ rest)) =
      (strstr crlfcrlf (line ++ rest)).map (· + 2) := by
  obtain ⟨c, line, rfl⟩ := List.exists_cons_of_ne_nil h.1
  have hc : cr ≠ c := fun heq => h.cr_notMem (heq ▸ List.mem_cons_self)
  have hnot₁ : ¬crlfcrlf <+: cr :: lf :: c :: (line ++ rest) := by
    simp [crlfcrlf, hc]
  have hnot₂ : ¬crlfcrlf <+: lf :: c :: (line ++ rest) := fun hprefix =>
    absurd (List.cons_prefix_cons.mp hprefix).1 (by decide)
  change strstr crlfcrlf (cr :: lf :: c :: (line ++ rest)) = _
  rw [strstr, if_neg hnot₁, if_neg (by decide), strstr, if_neg hnot₂, if_neg (by decide),
    Option.map_map]
  rfl

/-- The first two line ends in a row are those behind the last line. -/
theorem strstr_crlfLines (h : ∀ l ∈ lines, IsLine l) (t : Bytes) :
    strstr crlfcrlf (crlf ++ (HttpSend.crlfLines lines ++ (crlf ++ t))) =
      some (HttpSend.crlfLines lines).length := by
  induction lines with
  | nil => simp [strstr, crlf, crlfcrlf]
  | cons l lines ih =>
      obtain ⟨hl, hlines⟩ := List.forall_mem_cons.mp h
      rw [HttpSend.crlfLines_cons, List.append_assoc, List.append_assoc, strstr_crlf_append hl]
      have hpass := @strstr_text_append _ [lf, cr, lf] hl.2
        (crlf ++ (HttpSend.crlfLines lines ++ (crlf ++ t)))
      rw [show crlfcrlf = [cr, lf, cr, lf] from rfl, hpass, ← show crlfcrlf = [cr, lf, cr, lf] from rfl,
        ih hlines]
      simp only [Option.map_some, List.length_append, HttpSend.length_crlf, Option.some.injEq]
      omega

/-- Where a block of lines ends. -/
theorem strstr_lines (hline : IsLine line) (h : ∀ l ∈ lines, IsLine l) (t : Bytes) :
    strstr crlfcrlf (HttpSend.crlfLines (line :: lines) ++ crlf ++ t) =
      some (line.length + (HttpSend.crlfLines lines).length) := by
  have hpass := @strstr_text_append _ [lf, cr, lf] hline.2
    (crlf ++ (HttpSend.crlfLines lines ++ (crlf ++ t)))
  rw [HttpSend.crlfLines_cons, List.append_assoc, List.append_assoc, List.append_assoc,
    show crlfcrlf = [cr, lf, cr, lf] from rfl, hpass, ← show crlfcrlf = [cr, lf, cr, lf] from rfl,
    strstr_crlfLines h, Option.map_some, Nat.add_comm]

theorem strstr_crlf_line (hline : IsLine line) (rest : Bytes) :
    strstr crlf (line ++ (crlf ++ rest)) = some line.length := by
  rw [show crlf = cr :: [lf] from rfl, strstr_text_append hline.2]
  simp [strstr]

/-- Lines are cut where they were put together. -/
theorem splitCrlf_append (h : IsText line) (rest : Bytes) :
    splitCrlf (line ++ cr :: lf :: rest) = line :: splitCrlf rest := by
  induction line with
  | nil => simp [splitCrlf]
  | cons c line ih =>
      obtain ⟨⟨-, hcr, -⟩, hline⟩ := List.forall_mem_cons.mp h
      have hrest := ih hline
      cases line with
      | nil =>
          rw [List.nil_append] at hrest
          rw [List.cons_append, List.nil_append, splitCrlf, if_neg (by simp [hcr]), hrest]
          rfl
      | cons d line =>
          rw [List.cons_append] at hrest
          rw [List.cons_append, List.cons_append, splitCrlf, if_neg (by simp [hcr]), hrest]
          rfl

theorem splitCrlf_text (h : IsText line) : splitCrlf line = [line] := by
  induction line with
  | nil => rfl
  | cons c line ih =>
      obtain ⟨⟨-, hcr, -⟩, hline⟩ := List.forall_mem_cons.mp h
      cases line with
      | nil => rfl
      | cons d line =>
          rw [splitCrlf, if_neg (by simp [hcr]), ih hline]
          rfl

/-- Between the first line and the end of the block stand the lines. -/
theorem exists_splitCrlf_lines (h : ∀ l ∈ lines, IsLine l) (hne : lines ≠ []) :
    ∃ r, HttpSend.crlfLines lines = r ++ crlf ∧ splitCrlf r = lines := by
  induction lines with
  | nil => exact absurd rfl hne
  | cons l lines ih =>
      obtain ⟨hl, hlines⟩ := List.forall_mem_cons.mp h
      by_cases hnil : lines = []
      · refine ⟨l, by simp [hnil], ?_⟩
        rw [hnil, splitCrlf_text hl.2]
      · obtain ⟨r, hr, hsplit⟩ := ih hlines hnil
        refine ⟨l ++ cr :: lf :: r, ?_, by rw [splitCrlf_append hl.2, hsplit]⟩
        rw [HttpSend.crlfLines_cons, hr]
        simp [crlf]

theorem headerLines_lines (hline : IsLine line) (h : ∀ l ∈ lines, IsLine l) (t : Bytes) :
    headerLines (HttpSend.crlfLines (line :: lines) ++ crlf ++ t)
      (line.length + (HttpSend.crlfLines lines).length) = lines := by
  have htext : HttpSend.crlfLines (line :: lines) ++ crlf ++ t =
      (line ++ crlf) ++ (HttpSend.crlfLines lines ++ (crlf ++ t)) := by
    simp [HttpSend.crlfLines_cons]
  have hfirst : strstr crlf ((line ++ crlf) ++ (HttpSend.crlfLines lines ++ (crlf ++ t))) =
      some line.length := by
    rw [List.append_assoc]
    exact strstr_crlf_line hline _
  rw [htext, headerLines, hfirst]
  simp only
  by_cases hnil : lines = []
  · simp [hnil]
  · obtain ⟨r, hr, hsplit⟩ := exists_splitCrlf_lines h hnil
    have hlen := congrArg List.length hr
    rw [List.length_append, HttpSend.length_crlf] at hlen
    have hdrop : ((line ++ crlf) ++ (HttpSend.crlfLines lines ++ (crlf ++ t))).drop (line.length + 2) =
        HttpSend.crlfLines lines ++ (crlf ++ t) := by
      rw [show line.length + 2 = (line ++ crlf).length by simp, List.drop_left]
    rw [if_neg (by omega), hdrop, hlen,
      show line.length + (r.length + 2) - (line.length + 2) = r.length by omega, hr, List.append_assoc,
      List.take_left, hsplit]

/-! ### What the server makes of a head -/

/-- A method and a target that a request line has room for. -/
structure Fits (method target : Bytes) : Prop where
  method_ne : method ≠ []
  method_lt : method.length < 16
  method_text : IsText method ∧ 0x20 ∉ method
  target_ne : target ≠ []
  target_lt : target.length < 2048
  target_text : IsText target ∧ 0x20 ∉ target

/-- A request line. -/
def requestLine (method target : Bytes) : Bytes :=
  method ++ 0x20 :: (target ++ 0x20 :: ascii "HTTP/1.1".toList)

/-- The path of a target, and what stands behind its first question mark. -/
def pathOf (target : Bytes) : Bytes := target.takeWhile (· ≠ 0x3F)

/-- The query string of a target. -/
def queryOf (target : Bytes) : Bytes := target.drop ((pathOf target).length + 1)

variable {target : Bytes} {f : Bytes × Bytes} {fs : List (Bytes × Bytes)} {name : Bytes} {n : ℕ}

theorem isText_append {s t : Bytes} : IsText (s ++ t) ↔ IsText s ∧ IsText t := List.forall_mem_append

theorem isText_cons {c : UInt8} {s : Bytes} : IsText (c :: s) ↔ (c ≠ 0 ∧ c ≠ cr ∧ c ≠ lf) ∧ IsText s :=
  List.forall_mem_cons

theorem Fits.isLine {method : Bytes} (h : Fits method target) : IsLine (requestLine method target) := by
  refine ⟨by simp [requestLine], ?_⟩
  rw [requestLine, isText_append, isText_cons, isText_append, isText_cons]
  exact ⟨h.method_text.1, by decide, h.target_text.1, by decide, by unfold IsText; decide +kernel⟩

theorem parseRequestLine_eq {method : Bytes} (h : Fits method target) (rest : Bytes) :
    parseRequestLine (requestLine method target ++ (crlf ++ rest)) =
      .ok ⟨methodOf method, pathOf target, queryOf target⟩ := by
  have hzero : ∀ c ∈ method, (decide (c ≠ 0)) = true := fun c hc => by
    simpa using (h.method_text.1 c hc).1
  have hspace : strchr 0x20 (requestLine method target ++ (crlf ++ rest)) = some method.length := by
    rw [strchr, requestLine, List.append_assoc, cstr, List.takeWhile_append_of_pos hzero, List.cons_append,
      List.takeWhile_cons, if_pos (by decide), memchr_append_cons h.method_text.2]
  have hline : (requestLine method target).length = method.length + 1 + target.length + 9 := by
    simp [requestLine, ascii]
    omega
  have htarget : memchr 0x20 (target ++ 0x20 :: ascii "HTTP/1.1".toList) = some target.length :=
    memchr_append_cons h.target_text.2 _
  have hafter : (requestLine method target).drop (method.length + 1) =
      target ++ 0x20 :: ascii "HTTP/1.1".toList := by
    rw [requestLine, ← List.drop_drop, List.drop_left]
    rfl
  have hmethod : (requestLine method target ++ (crlf ++ rest)).take method.length = method := by
    rw [requestLine, List.append_assoc, List.take_left]
  have hpos := List.length_pos_iff.mpr h.method_ne
  have hpos' := List.length_pos_iff.mpr h.target_ne
  have hlt := h.method_lt
  have hlt' := h.target_lt
  rw [parseRequestLine, strstr_crlf_line h.isLine, hspace]
  simp only [List.take_left, hafter, htarget, hmethod]
  rw [if_neg (by omega), if_neg (by omega), if_neg (by omega)]
  rfl

/-- A field that the server takes: a token as a name, and a value within the line. -/
structure Sendable (f : Bytes × Bytes) : Prop where
  ne : f.1 ≠ []
  token : ∀ c ∈ f.1, IsTchar c
  value : IsText f.2

theorem isText_of_isTchar {s : Bytes} (h : ∀ c ∈ s, IsTchar c) : IsText s := by
  have htchar : ∀ c, IsTchar c → c ≠ 0 ∧ c ≠ cr ∧ c ≠ lf := by decide +kernel
  exact fun c hc => htchar c (h c hc)

theorem Sendable.isLine (h : Sendable f) : IsLine (fieldLine f) := by
  refine ⟨by simp [fieldLine, HttpSend.headerLine], ?_⟩
  rw [fieldLine, HttpSend.headerLine, isText_append, isText_cons, isText_cons]
  exact ⟨isText_of_isTchar h.token, by decide, by decide, h.value⟩

theorem Sendable.isField (h : Sendable f) : HttpServer.IsField (fieldLine f) :=
  ⟨⟨f.1, 0x20 :: f.2, rfl, h.ne, h.token⟩, h.isLine.cr_notMem, h.isLine.lf_notMem⟩

theorem Sendable.fieldOf (h : Sendable f) :
    fieldOf (fieldLine f) = (f.1.map tolower, f.2.dropWhile HttpServer.isBlank) := by
  rw [fieldLine, HttpSend.headerLine, fieldOf_append h.token, List.dropWhile_cons, if_pos (by decide)]

/-- The value of the last field of a name, given in lower case. -/
def lastField (name : Bytes) (fs : List (Bytes × Bytes)) : Option Bytes :=
  ((fs.filter fun f => f.1.map tolower = name).getLast?).map fun f => f.2.dropWhile HttpServer.isBlank

theorem lastField_concat (f : Bytes × Bytes) : lastField name (fs ++ [f]) =
    if f.1.map tolower = name then some (f.2.dropWhile HttpServer.isBlank) else lastField name fs := by
  rw [lastField, List.filter_append, List.filter_singleton]
  split_ifs with h <;> simp [h, lastField]

/-- The map of the server has the last value of every name. -/
theorem lastValue_fieldLine (h : ∀ f ∈ fs, Sendable f) :
    lastValue name (fs.map fieldLine) = lastField name fs := by
  induction fs using List.reverseRecOn with
  | nil => rfl
  | append_singleton fs f ih =>
      obtain ⟨hfs, hf⟩ := List.forall_mem_append.mp h
      have hf := (hf f (List.mem_singleton_self f)).fieldOf
      rw [lastField_concat, ← ih hfs, lastValue, List.map_append, List.foldl_append]
      simp only [List.map_cons, List.map_nil, List.foldl_cons, List.foldl_nil, hf]
      rfl

/-- What a head has to say of the length of the body: one length, within the limit, and no encoding. -/
structure Measured (n : ℕ) (fs : List (Bytes × Bytes)) : Prop where
  length : fs.filter (fun f => f.1.map tolower = contentLengthName) =
    [(ascii "Content-Length".toList, Radix.decimal n)]
  encoding : ∀ f ∈ fs, f.1.map tolower ≠ transferEncodingName
  le : n ≤ maxHttpBodySize

/-- The loop of `parse_content_length_strict` on digits. -/
theorem contentLengthLoop_eq {digits : Bytes} (hdigits : ∀ c ∈ digits, isdigit c = true) (v : ℕ)
    (hle : (digits.map fun c => c.toNat - 0x30).foldl (fun acc d => acc * 10 + d) v ≤ maxHttpBodySize) :
    contentLengthLoop v digits =
      .ok ((digits.map fun c => c.toNat - 0x30).foldl (fun acc d => acc * 10 + d) v) := by
  induction digits generalizing v with
  | nil => rfl
  | cons c digits ih =>
      obtain ⟨hc, hdigits⟩ := List.forall_mem_cons.mp hdigits
      rw [List.map_cons, List.foldl_cons] at hle ⊢
      have hround := (HttpResponseParser.le_foldl_digits (by decide) _ _).trans hle
      have hlt := HttpResponseParser.digit_lt c hc
      have hrange : ¬(c < 0x30 ∨ 0x39 < c) := by
        have : ∀ c : UInt8, isdigit c = true → ¬(c < 0x30 ∨ 0x39 < c) := by decide +kernel
        exact this c hc
      rw [contentLengthLoop, if_neg hrange]
      simp only
      rw [if_neg (by rw [Nat.not_lt, Nat.le_div_iff_mul_le (by decide)]; omega)]
      exact ih hdigits _ hle

theorem parseContentLengthStrict_decimal (h : n ≤ maxHttpBodySize) :
    parseContentLengthStrict (Radix.decimal n) = .ok n := by
  have hvalue : ((Radix.decimal n).map fun c => c.toNat - 0x30).foldl (fun acc d => acc * 10 + d) 0 = n :=
    Radix.decimalValue_decimal n
  rw [parseContentLengthStrict, if_neg (Radix.decimal_ne_nil n),
    contentLengthLoop_eq (fun c hc => Radix.isdigit_of_mem_decimal hc) 0 (by rw [hvalue]; exact h), hvalue]

theorem dropWhile_isBlank_decimal (n : ℕ) :
    (Radix.decimal n).dropWhile HttpServer.isBlank = Radix.decimal n := by
  obtain ⟨c, s, hs⟩ := List.exists_cons_of_ne_nil (Radix.decimal_ne_nil n)
  have hdigit : isdigit c = true := Radix.isdigit_of_mem_decimal (n := n) (by rw [hs]; simp)
  rw [hs, List.dropWhile_cons, if_neg (by simp [HttpResponseParser.not_isBlank_of_isdigit hdigit])]

theorem Measured.lastField (h : Measured n fs) : lastField contentLengthName fs =
    some (Radix.decimal n) := by
  rw [HttpExchange.lastField, h.length]
  simp [dropWhile_isBlank_decimal]

/-- The fields are a header block that the server accepts. -/
theorem Measured.headersOk (h : Measured n fs) (hfs : ∀ f ∈ fs, Sendable f) :
    HeadersOk (fs.map fieldLine) := by
  have hnames : fieldNames (fs.map fieldLine) = fs.map fun f => f.1.map tolower := by
    rw [fieldNames, List.map_map]
    exact List.map_congr_left fun f hf => congrArg Prod.fst (hfs f hf).fieldOf
  refine ⟨List.forall_mem_map.mpr fun f hf => (hfs f hf).isField, ?_, ?_⟩
  · rw [hnames]
    intro hmem
    obtain ⟨f, hf, heq⟩ := List.mem_map.mp hmem
    exact h.encoding f hf heq
  · have hcount := congrArg List.length h.length
    rw [hnames, List.count_eq_countP, List.countP_map, List.countP_eq_length_filter]
    simp only [List.length_singleton] at hcount
    rw [← hcount]
    exact (congrArg List.length (List.filter_congr fun f _ => by rw [Bool.eq_iff_iff]; simp)).le

/-- **What the server makes of a head**: the method, the path and the query of its first line, the last value
of every name, and a body of the length it names. -/
theorem parseBlock_lines {method : Bytes} (hline : Fits method target) (hfs : ∀ f ∈ fs, Sendable f)
    (hshort : ∀ f ∈ fs, f.1.length < maxKeyLen) (hlength : Measured n fs) {query : HashMap Bytes}
    (hquery : parseQuery (strtok 0x26 (queryOf target)) (HashMap.new 16) = some query) :
    ∃ headers, parseBlock (HttpSend.crlfLines (requestLine method target :: fs.map fieldLine) ++ crlf) =
        .ok ⟨⟨methodOf method, pathOf target, query, headers, [], n⟩,
          !(lastField connectionName fs).any fun v => v.map tolower = ascii ['c', 'l', 'o', 's', 'e']⟩ ∧
      ∀ name, name.length < maxKeyLen → headers.get name = lastField name fs := by
  have hlines : ∀ l ∈ fs.map fieldLine, IsLine l := List.forall_mem_map.mpr fun f hf => (hfs f hf).isLine
  generalize hend : (requestLine method target).length + (HttpSend.crlfLines (fs.map fieldLine)).length =
    headerEnd
  have hfind := strstr_lines hline.isLine hlines []
  rw [List.append_nil, hend] at hfind
  have hheaders := headerLines_lines hline.isLine hlines []
  rw [List.append_nil, hend] at hheaders
  have hlen : (HttpSend.crlfLines (requestLine method target :: fs.map fieldLine) ++ crlf).length - 4 =
      headerEnd := by
    simp only [HttpSend.crlfLines_cons, List.length_append, HttpSend.length_crlf]
    omega
  obtain ⟨haccept, -⟩ := parseHeaders_eq hfind (HashMap.new 32)
  rw [hheaders] at haccept
  obtain ⟨buf', -, -, hparse⟩ := haccept (hlength.headersOk hfs)
  have hshort' : ∀ line ∈ fs.map fieldLine, (fieldOf line).1.length < maxKeyLen :=
    List.forall_mem_map.mpr fun f hf => by
      rw [(hfs f hf).fieldOf, List.length_map]
      exact hshort f hf
  obtain ⟨m, hrep, hlookup⟩ := represents_storeFields (HashMap.represents_new 32) hshort'
  have hget : ∀ name, name.length < maxKeyLen →
      (storeFields (fs.map fieldLine) (HashMap.new 32)).get name = lastField name fs := by
    intro name hname
    rw [hrep.get hname, hlookup, Finmap.lookup_empty, ← lastValue_fieldLine hfs]
    rfl
  have hfirst : parseRequestLine (HttpSend.crlfLines (requestLine method target :: fs.map fieldLine) ++
    crlf) =
      .ok ⟨methodOf method, pathOf target, queryOf target⟩ := by
    rw [HttpSend.crlfLines_cons, List.append_assoc, List.append_assoc]
    exact parseRequestLine_eq hline _
  refine ⟨storeFields (fs.map fieldLine) (HashMap.new 32), ?_, hget⟩
  rw [parseBlock, hlen, parseRequest, hfirst]
  simp only [hquery, hparse, hget connectionName (by decide), hget contentLengthName (by decide),
    hlength.lastField, Option.map_some, parseContentLengthStrict_decimal hlength.le]
  rfl

/-! ### What the client sends -/

/-- `PayloadType` with what goes with it, without the multipart bodies. -/
inductive Payload where
  | none
  | form (data : HashMap Bytes)
  | json (data : HashMap Bytes)
  | raw (body : Bytes) (contentType : Option Bytes)

/-- `body_buf` up to `body_len`. -/
def Payload.body : Payload → Bytes
  | .none => []
  | .form data => (HttpRequestBuilder.buildFormBody data).getD []
  | .json data => HttpRequestBuilder.buildJsonBody data
  | .raw body _ => body

/-- `content_type`. -/
def Payload.contentType : Payload → Option Bytes
  | .none => Option.none
  | .form _ => some (ascii "application/x-www-form-urlencoded".toList)
  | .json _ => some (ascii "application/json".toList)
  | .raw _ contentType => contentType

/-- What `impl_execute` writes a request from: the request, the round it is in, and the headers and the option
`enable_compression` of the client. -/
structure Call where
  method : Bytes
  payload : Payload
  exchange : HttpClient.Exchange
  defaultHeaders : HashMap Bytes
  compression : Bool

/-- `snprintf(tmp, sizeof(tmp), ...)`: what fits `tmp[8192]`. -/
def printed (s : Bytes) : Bytes := s.take 8191

namespace Call

/-- The fields that are printed with the request line. -/
def startFields (c : Call) : List (Bytes × Bytes) :=
  [(ascii "Host".toList, c.exchange.host), (ascii "User-Agent".toList, ascii "WebCore-Client/1.5".toList),
    (ascii "Accept".toList, ascii "*/*".toList)]

/-- The field of the option. -/
def encodingFields (c : Call) : List (Bytes × Bytes) :=
  if c.compression then [(ascii "Accept-Encoding".toList, ascii "gzip, deflate".toList)] else []

/-- A cookie as it is sent. -/
def cookieItem (s : HttpClient.Stored) : Bytes := s.cookie.name ++ HttpClient.equalsByte :: s.cookie.value

/-- The cookies that are sent. -/
def cookieFields (c : Call) : List (Bytes × Bytes) :=
  if c.exchange.cookies = [] then []
  else [(ascii "Cookie".toList, (ascii "; ".toList).intercalate (c.exchange.cookies.map cookieItem))]

/-- The type of a body that is announced: `body_len > 0 && content_type`. -/
def announced (c : Call) : Option Bytes := if c.payload.body = [] then none else c.payload.contentType

/-- The last fields. -/
def lastFields (c : Call) : List (Bytes × Bytes) :=
  match c.announced with
  | some contentType => [(ascii "Content-Type".toList, contentType),
      (ascii "Content-Length".toList, Radix.decimal c.payload.body.length),
      (ascii "Connection".toList, ascii "close".toList)]
  | none => [(ascii "Content-Length".toList, ascii "0".toList),
      (ascii "Connection".toList, ascii "close".toList)]

/-- `head_sb`. -/
def head (c : Call) : Bytes :=
  printed (HttpSend.crlfLines (requestLine c.method c.exchange.path :: c.startFields.map fieldLine)) ++
    HttpSend.crlfLines (c.encodingFields.map fieldLine) ++
    (c.defaultHeaders.keys.flatMap fun k => (c.defaultHeaders.get k).elim [] fun v =>
      printed (HttpSend.crlfLines [fieldLine (k, v)])) ++
    (if c.exchange.cookies = [] then []
      else HttpSend.crlfLines [fieldLine (ascii "Cookie".toList, (ascii "; ".toList).intercalate
        (c.exchange.cookies.map fun s => printed (cookieItem s)))]) ++
    printed (HttpSend.crlfLines (c.lastFields.map fieldLine) ++ crlf)

/-- What is sent: the head, and the body whenever there is one. -/
def wire (c : Call) : Bytes := c.head ++ c.payload.body

/-- All fields, in order. -/
def fields (c : Call) : List (Bytes × Bytes) :=
  c.startFields ++ c.encodingFields ++ c.defaultHeaders.entries ++ c.cookieFields ++ c.lastFields

/-- The head, if nothing is cut. -/
def text (c : Call) : Bytes :=
  HttpSend.crlfLines (requestLine c.method c.exchange.path :: c.fields.map fieldLine) ++ crlf

/-- A call that both ends have room for: a request line and fields within their lines, default headers that say
nothing of the framing, a type for a body, and a head that fits the buffer of the server with
whatever chunk of the body comes with its end. -/
structure Valid (c : Call) : Prop where
  line : Fits c.method c.exchange.path
  sendable : ∀ f ∈ c.fields, Sendable f ∧ f.1.length < maxKeyLen
  represents : ∃ f, c.defaultHeaders.Represents f
  framing : ∀ f ∈ c.defaultHeaders.entries, f.1.map tolower ≠ contentLengthName ∧
    f.1.map tolower ≠ transferEncodingName
  typed : c.payload.body ≠ [] → c.payload.contentType ≠ none
  body_le : c.payload.body.length ≤ maxHttpBodySize
  room : c.text.length ≤ 4097 ∨ c.text.length + c.payload.body.length < headerBufSize

variable {c : Call}

theorem Valid.length_text_lt (h : c.Valid) : c.text.length < 8192 := by
  have hroom := h.room
  rw [headerBufSize] at hroom
  omega

theorem printed_of_lt {s : Bytes} (h : s.length < 8192) : printed s = s := List.take_of_length_le (by omega)

theorem get_of_mem (h : ∃ f, c.defaultHeaders.Represents f)
    (hshort : ∀ f ∈ c.fields, f.1.length < maxKeyLen) :
    ∀ e ∈ c.defaultHeaders.entries, c.defaultHeaders.get e.1 = some e.2 := by
  obtain ⟨f, hrep⟩ := h
  rintro ⟨k, v⟩ he
  have hk : k.length < maxKeyLen := hshort (k, v) (by simp [fields, he])
  rw [hrep.get hk]
  exact (hrep.mem_iff k v).mp he

theorem length_le_intercalate (sep : Bytes) {item : Bytes} {items : List Bytes} (h : item ∈ items) :
    item.length ≤ (sep.intercalate items).length := by
  cases items with
  | nil => simp at h
  | cons x xs =>
      rw [HttpRequestBuilder.intercalate_cons_eq, List.length_append]
      rcases List.mem_cons.mp h with rfl | h
      · omega
      · have hle := (List.sublist_flatten_of_mem (List.mem_map_of_mem (f := (sep ++ ·)) h)).length_le
        rw [List.length_append, ← List.flatMap_def] at hle
        omega

/-- Nothing is cut in a head that fits. -/
theorem Valid.head_eq (h : c.Valid) : c.head = c.text := by
  have hlt := h.length_text_lt
  have htext : c.text = HttpSend.crlfLines (requestLine c.method c.exchange.path :: c.startFields.map fieldLine) ++
      HttpSend.crlfLines (c.encodingFields.map fieldLine) ++
      HttpSend.crlfLines (c.defaultHeaders.entries.map fieldLine) ++
      HttpSend.crlfLines (c.cookieFields.map fieldLine) ++
        (HttpSend.crlfLines (c.lastFields.map fieldLine) ++ crlf) := by
    simp only [text, fields, List.map_append, HttpSend.crlfLines_cons, HttpSend.crlfLines_append,
      List.append_assoc]
  have hpieces := congrArg List.length htext
  simp only [List.length_append] at hpieces
  rw [htext, head, printed_of_lt (by omega),
    printed_of_lt (s := HttpSend.crlfLines (c.lastFields.map fieldLine) ++ crlf)
      (by rw [List.length_append]; omega)]
  -- the default headers, one by one
  have hdefaults : (c.defaultHeaders.keys.flatMap fun k => (c.defaultHeaders.get k).elim [] fun v =>
      printed (HttpSend.crlfLines [fieldLine (k, v)])) =
        HttpSend.crlfLines (c.defaultHeaders.entries.map fieldLine) := by
    have hget := get_of_mem h.represents fun f hf => (h.sendable f hf).2
    rw [HashMap.keys, HttpSend.crlfLines, List.flatMap_map, List.flatMap_map]
    refine List.flatMap_congr fun e he => ?_
    have hle := length_le_crlfLines (List.mem_map_of_mem (f := fieldLine) he)
    rw [hget e he, Option.elim_some, printed_of_lt]
    · simp
    · rw [HttpSend.crlfLines_cons, List.length_append, List.length_append, HttpSend.length_crlf]
      simp
      omega
  -- the cookies, one by one
  have hcookies : (if c.exchange.cookies = [] then []
      else HttpSend.crlfLines [fieldLine (ascii "Cookie".toList, (ascii "; ".toList).intercalate
        (c.exchange.cookies.map fun s => printed (cookieItem s)))]) =
      HttpSend.crlfLines (c.cookieFields.map fieldLine) := by
    rw [cookieFields]
    split_ifs with hnil
    · rfl
    · have hfield : (ascii "Cookie".toList, (ascii "; ".toList).intercalate
          (c.exchange.cookies.map cookieItem)) ∈ c.cookieFields := by simp [cookieFields, hnil]
      have hline := length_le_crlfLines (List.mem_map_of_mem (f := fieldLine) hfield)
      have hprinted : ∀ s ∈ c.exchange.cookies, printed (cookieItem s) = cookieItem s := by
        intro s hs
        have hle := length_le_intercalate (ascii "; ".toList) (List.mem_map_of_mem (f := cookieItem) hs)
        rw [fieldLine, HttpSend.headerLine, List.length_append, List.length_cons, List.length_cons] at hline
        simp only at hline
        exact printed_of_lt (by omega)
      rw [List.map_congr_left hprinted]
      rfl
  rw [hdefaults, hcookies]

/-- A field that says nothing of the framing. -/
def Free (f : Bytes × Bytes) : Prop :=
  f.1.map tolower ≠ contentLengthName ∧ f.1.map tolower ≠ transferEncodingName

instance (f : Bytes × Bytes) : Decidable (Free f) := inferInstanceAs (Decidable (_ ∧ _))

/-- One length between fields that say nothing of the framing. -/
theorem measured_of_free {front back : List (Bytes × Bytes)} (hfront : ∀ f ∈ front, Free f)
    (hback : ∀ f ∈ back, Free f) (hn : n ≤ maxHttpBodySize) :
    Measured n (front ++ (ascii "Content-Length".toList, Radix.decimal n) :: back) where
  length := by
    have hnone : ∀ {fs : List (Bytes × Bytes)}, (∀ f ∈ fs, Free f) →
        fs.filter (fun f => f.1.map tolower = contentLengthName) = [] := fun h =>
      List.filter_eq_nil_iff.mpr fun f hf => by simpa using (h f hf).1
    have hlength : (ascii "Content-Length".toList).map tolower = contentLengthName := by decide
    rw [List.filter_append, hnone hfront, List.nil_append, List.filter_cons, hnone hback, if_pos]
    rw [hlength]
    exact decide_eq_true rfl
  encoding := by
    have hlength : (ascii "Content-Length".toList).map tolower ≠ transferEncodingName := by decide
    intro f hf
    rcases List.mem_append.mp hf with hf | hf
    · exact (hfront f hf).2
    · rcases List.mem_cons.mp hf with rfl | hf
      · exact hlength
      · exact (hback f hf).2
  le := hn

/-- The length of the body is announced when there is a type for it. -/
theorem Valid.lastFields_eq (h : c.Valid) : c.lastFields =
    c.announced.toList.map (fun t => (ascii "Content-Type".toList, t)) ++
      (ascii "Content-Length".toList, Radix.decimal c.payload.body.length) ::
        [(ascii "Connection".toList, ascii "close".toList)] := by
  rw [lastFields]
  cases ht : c.announced with
  | some t => rfl
  | none =>
      have hnil : c.payload.body = [] := by
        by_contra hne
        rw [announced, if_neg hne] at ht
        exact h.typed hne ht
      rw [hnil]
      rfl

/-- The fields say what the body is. -/
theorem Valid.measured (h : c.Valid) : Measured c.payload.body.length c.fields := by
  have hstart : ∀ f ∈ c.startFields, Free f := by
    have hnames : ∀ name ∈ [ascii "Host".toList, ascii "User-Agent".toList, ascii "Accept".toList],
        Free (name, []) := by decide
    intro f hf
    exact hnames f.1 (List.mem_map_of_mem (f := Prod.fst) hf)
  have hencoding : ∀ f ∈ c.encodingFields, Free f := by
    have hname : Free (ascii "Accept-Encoding".toList, []) := by decide
    intro f hf
    rw [encodingFields] at hf
    split_ifs at hf
    · rw [List.mem_singleton.mp hf]
      exact hname
    · cases hf
  have hcookies : ∀ f ∈ c.cookieFields, Free f := by
    have hname : Free (ascii "Cookie".toList, []) := by decide
    intro f hf
    rw [cookieFields] at hf
    split_ifs at hf
    · cases hf
    · rw [List.mem_singleton.mp hf]
      exact hname
  have htypes : ∀ f ∈ c.announced.toList.map (fun t => (ascii "Content-Type".toList, t)), Free f := by
    have hname : Free (ascii "Content-Type".toList, []) := by decide
    intro f hf
    obtain ⟨t, -, rfl⟩ := List.mem_map.mp hf
    exact hname
  rw [fields, h.lastFields_eq, ← List.append_assoc]
  refine measured_of_free (fun f hf => ?_) (by decide) h.body_le
  simp only [List.mem_append] at hf
  rcases hf with (((hf | hf) | hf) | hf) | hf
  · exact hstart f hf
  · exact hencoding f hf
  · exact h.framing f hf
  · exact hcookies f hf
  · exact htypes f hf

/-- The last word on the connection is to close it. -/
theorem lastField_connection (h : c.Valid) :
    lastField connectionName c.fields = some (ascii "close".toList) := by
  have hname : (ascii "Connection".toList).map tolower = connectionName := by decide
  have hvalue : (ascii "close".toList).dropWhile HttpServer.isBlank = ascii "close".toList := by decide
  rw [fields, h.lastFields_eq, ← List.append_assoc]
  generalize c.startFields ++ c.encodingFields ++ c.defaultHeaders.entries ++ c.cookieFields ++
    c.announced.toList.map _ = front
  have hconcat := @lastField_concat
    (front ++ [(ascii "Content-Length".toList, Radix.decimal c.payload.body.length)]) connectionName
    (ascii "Connection".toList, ascii "close".toList)
  rw [List.append_assoc] at hconcat
  exact hconcat.trans (by simp only [hname, if_true, hvalue])

end Call

/-! ### The request arrives -/

variable {E : Type} {h : Handlers E} {c : Call} {query : HashMap Bytes}

/-- The head of a call is the block of its request, which asks for the connection to be closed. -/
theorem Call.Valid.parseBlock_text (hc : c.Valid)
    (hquery : parseQuery (strtok 0x26 (queryOf c.exchange.path)) (HashMap.new 16) = some query) :
    ∃ headers, parseBlock c.text = .ok ⟨⟨methodOf c.method, pathOf c.exchange.path, query, headers, [],
        c.payload.body.length⟩, false⟩ ∧
      ∀ name, name.length < maxKeyLen → headers.get name = lastField name c.fields := by
  obtain ⟨headers, hparse, hget⟩ := parseBlock_lines hc.line (fun f hf => (hc.sendable f hf).1)
    (fun f hf => (hc.sendable f hf).2) hc.measured hquery
  rw [Call.lastField_connection hc] at hparse
  exact ⟨headers, hparse, hget⟩

/-- A query that was built from a map is that map again. -/
theorem represents_query (hquery : parseQuery (strtok 0x26 (queryOf target)) (HashMap.new 16) = some query)
    {data : HashMap Bytes} {f : HashMap.FMap Bytes} (hrep : data.Represents f) (hne : f ≠ ∅)
    (hkeys : ∀ k v, f.lookup k = some v → k.length < maxKeyLen ∧ 0 ∉ k ∧ 0 ∉ v)
    (hbuild : HttpRequestBuilder.buildFormBody data = some (queryOf target)) : query.Represents f := by
  obtain ⟨body, hbody, hstored⟩ := HttpForms.parseQuery_buildFormBody hrep hne
    (fun k v hv => (hkeys k v hv).1) (fun k v hv => (hkeys k v hv).2) (HashMap.new 16)
  obtain rfl : queryOf target = body := Option.some.inj (hbuild.symm.trans hbody)
  rw [hquery] at hstored
  rw [Option.some.inj hstored]
  exact hrep.rebuild (fun e he => (hkeys e.1 e.2 ((hrep.mem_iff e.1 e.2).mp he)).1) 16

/-- **The request that was meant is the request that is dispatched**, in whatever chunks it arrives: with its
method, its path, its query, the last value of every field that was sent and its body; and then the
connection is closed, as the client asked. Parameters that were put into the URL are the parameters the
handler finds. -/
theorem request_arrives (hh : h.HttpOnly) {e : E} (hup : h.shuttingDown e = false) (hc : c.Valid)
    (hquery : parseQuery (strtok 0x26 (queryOf c.exchange.path)) (HashMap.new 16) = some query)
    {input : List Recv} (hin : Chunked input) (hbytes : bytesOf input = c.wire) :
    ∃ req, observed h e input = ([req], true) ∧ req.method = methodOf c.method ∧
      req.path = pathOf c.exchange.path ∧ req.query = query ∧ req.body = c.payload.body ∧
      (∀ name, name.length < maxKeyLen → req.headers.get name = lastField name c.fields) ∧
      ∀ (data : HashMap Bytes) (f : HashMap.FMap Bytes), data.Represents f → f ≠ ∅ →
        (∀ k v, f.lookup k = some v → k.length < maxKeyLen ∧ 0 ∉ k ∧ 0 ∉ v) →
        HttpRequestBuilder.buildFormBody data = some (queryOf c.exchange.path) →
        req.query.Represents f := by
  obtain ⟨headers, hparse, hget⟩ := hc.parseBlock_text hquery
  have hlines : ∀ l ∈ c.fields.map fieldLine, IsLine l :=
    List.forall_mem_map.mpr fun f hf => (hc.sendable f hf).1.isLine
  have hlen : (requestLine c.method c.exchange.path).length +
    (HttpSend.crlfLines (c.fields.map fieldLine)).length + 4 =
      c.text.length := by
    simp only [Call.text, HttpSend.crlfLines_cons, List.length_append, HttpSend.length_crlf]
    omega
  have hlt := hc.length_text_lt
  have hwire : c.wire = c.text ++ c.payload.body := by rw [Call.wire, hc.head_eq]
  have hlimit : (httpProtocol h).limit = 8192 := rfl
  -- the block ends where the head does, in the buffer of the server too
  have hblock : (httpProtocol h).blockLen (c.wire.take ((httpProtocol h).limit - 1)) =
    some c.text.length := by
    have hfind := strstr_lines hc.line.isLine hlines c.payload.body
    rw [← Call.text, ← hwire] at hfind
    have htake := strstr_take crlfcrlf_ne_nil hfind (n := 8191)
      (by rw [show crlfcrlf.length = 4 from rfl]; omega)
    change (strstr crlfcrlf (c.wire.take 8191)).map (· + 4) = _
    rw [htake, Option.map_some, hlen]
  have hhead : (httpProtocol h).parse (c.wire.take c.text.length) =
      some ⟨⟨methodOf c.method, pathOf c.exchange.path, query, headers, [], c.payload.body.length⟩,
        false⟩ := by
    change (parseBlock (c.wire.take c.text.length)).toOption = _
    rw [hwire, List.take_left, hparse]
    rfl
  have hread := reads_chunksOf hin
  rw [hbytes] at hread
  have hpos := (Framing.Format.blockLen_pos _ hblock)
  have hwlen : c.wire.length = c.text.length + c.payload.body.length := by rw [hwire, List.length_append]
  have hover : ¬Framing.Overrun (httpProtocol h) 4095 0 c.text.length c.wire := by
    rintro ⟨hover, hlong⟩
    have hroom := hc.room
    rw [hlimit] at hover hlong
    rw [headerBufSize] at hroom
    omega
  obtain ⟨left, cs', -, hfeed⟩ := Framing.feedAll_delivered hblock
    (r := ⟨e, .header [], []⟩) rfl hread hhead
    (by rw [hwlen]; exact le_rfl) (by omega) hover
  have hbody : (c.wire.drop c.text.length).take c.payload.body.length = c.payload.body := by
    rw [hwire, List.drop_left, List.take_length]
  refine ⟨⟨methodOf c.method, pathOf c.exchange.path, query, headers, c.payload.body,
    c.payload.body.length⟩,
    ?_, rfl, rfl, rfl, rfl, hget, fun data f hrep hne hkeys hbuild =>
      represents_query hquery hrep hne hkeys hbuild⟩
  rw [outcome_serve hh e hin, hfeed, Framing.finish]
  simp only [httpProtocol, hup, Bool.false_eq_true, if_false]
  rw [Framing.feedAll_closed _ rfl]
  change ([ParsedRequest.withBody _ ((c.wire.drop c.text.length).take c.payload.body.length)], true) = _
  rw [hbody]
  rfl

/-- A `POST` of two bytes with a query. -/
def sampleCall : Call where
  method := ascii ['P', 'O', 'S', 'T']
  payload := .raw (ascii ['4', '2']) (some (ascii "text/plain".toList))
  exchange := ⟨ascii ['h'], ascii ['/', 'a', '?', 'k', '=', '%', '2', '0'], [], []⟩
  defaultHeaders := HashMap.new 16
  compression := true

/-- The request arrives, whether it comes in one chunk or byte by byte. -/
theorem request_arrives_sample :
    (∃ req, observed (.plain 200) () [.data sampleCall.wire] = ([req], true) ∧
      req.method = .post ∧ req.path = ascii ['/', 'a'] ∧ req.body = ascii ['4', '2'] ∧
      req.headers.get (ascii "host".toList) = some (ascii ['h'])) ∧
    ∃ req, observed (.plain 200) () (sampleCall.wire.map fun b => .data [b]) = ([req], true) ∧
      req.body = ascii ['4', '2'] := by
  have hh : (Handlers.plain 200).HttpOnly := ⟨fun _ _ => by simp [Handlers.plain], fun _ _ => rfl⟩
  have hfields : ∀ f ∈ sampleCall.fields, (f.1 ≠ [] ∧ (∀ c ∈ f.1, IsTchar c) ∧ IsText f.2) ∧
      f.1.length < maxKeyLen := by
    unfold IsText
    decide +kernel
  have hvalid : sampleCall.Valid :=
    { line := ⟨by decide, by decide, ⟨by unfold IsText; decide +kernel, by decide⟩, by decide, by decide,
        by unfold IsText; decide +kernel, by decide⟩
      sendable := fun f hf => ⟨⟨(hfields f hf).1.1, (hfields f hf).1.2.1, (hfields f hf).1.2.2⟩,
        (hfields f hf).2⟩
      represents := ⟨∅, HashMap.represents_new 16⟩
      framing := by simp [sampleCall]
      typed := by simp [sampleCall, Payload.contentType]
      body_le := by decide
      room := .inl (by decide +kernel) }
  have hquery : parseQuery (strtok 0x26 (queryOf sampleCall.exchange.path)) (HashMap.new 16) =
      some ((HashMap.new 16).put (ascii ['k']) (ascii [' '])) := rfl
  have hlen : sampleCall.wire.length ≤ 4095 := by decide +kernel
  have hbytes : ∀ s : Bytes, bytesOf (s.map fun b => .data [b]) = s := by
    intro s
    induction s with
    | nil => rfl
    | cons b s ih => exact congrArg (b :: ·) ih
  constructor
  · obtain ⟨req, hobs, hmethod, hpath, -, hbody, hheaders, -⟩ :=
      request_arrives hh (e := ()) rfl hvalid hquery
      (by simpa [Chunked, Call.wire, sampleCall, Payload.body, ascii] using hlen)
      (by simp [bytesOf, Recv.bytes] : bytesOf [.data sampleCall.wire] = sampleCall.wire)
    refine ⟨req, hobs, hmethod, hpath, hbody, ?_⟩
    rw [hheaders _ (by decide)]
    decide +kernel
  · obtain ⟨req, hobs, -, -, -, hbody, -⟩ := request_arrives hh (e := ()) rfl hvalid hquery
      (by simp [Chunked]) (hbytes _)
    exact ⟨req, hobs, hbody⟩

end HttpExchange
