import LibCore.HashMapRefine

/-!
# The Header Parser of the HTTP Server

This module embeds `HttpConnection_parse_headers` of `http_server.c`. The parser walks the
header lines of the receive buffer and edits the buffer while it scans it: it writes a NUL
over the colon and over the end of each line and turns the name into lower case, so that
name and value become C strings in place. Offsets into the buffer stand for the pointers
`p`, `eol`, `colon`, `key` and `val`.

## Main definitions

* `httpIsTchar`: the characters of a field name.
* `headerLine`, `headerLoop`, `parseHeaders`: one line, the loop and the function.
-/

open CString

namespace HttpServer

/-- Carriage return. -/
abbrev cr : UInt8 := 0x0D

/-- Line feed. -/
abbrev lf : UInt8 := 0x0A

/-- `':'`. -/
abbrev colonByte : UInt8 := 0x3A

/-- The end of a line. -/
def crlf : Bytes := [cr, lf]

/-- The end of a header block. -/
def crlfcrlf : Bytes := [cr, lf, cr, lf]

/-- `http_is_tchar`; the last two are the single quote and the grave accent. -/
def httpIsTchar (c : UInt8) : Bool :=
  isalnum c ||
    c ∈ ascii ['!', '#', '$', '%', '&', '*', '+', '-', '.', '^', '_', '|', '~'] ++ [0x27, 0x60]

/-- A blank or a tab. -/
def isBlank (c : UInt8) : Bool := c = 0x20 || c = 0x09

/-- The name `content-length`. -/
def contentLengthName : Bytes :=
  ascii ['c', 'o', 'n', 't', 'e', 'n', 't', '-', 'l', 'e', 'n', 'g', 't', 'h']

/-- The name `transfer-encoding`. -/
def transferEncodingName : Bytes :=
  ascii ['t', 'r', 'a', 'n', 's', 'f', 'e', 'r', '-', 'e', 'n', 'c', 'o', 'd', 'i', 'n', 'g']

/-- The variables of the loop: the buffer as edited so far, the start of the next line, the
two flags and the map of the request. -/
structure HeaderState where
  buf : Bytes
  p : ℕ
  hasCl : Bool
  hasTe : Bool
  headers : HashMap Bytes

/-- How a round of the loop ends: the function returns 0, the loop is left, or it goes on. -/
inductive LineResult where
  | reject
  | stop
  | next (st : HeaderState)

/-- The lower-case loop: rewrite the C string at offset `key` in place. -/
def lowerCaseAt (key : ℕ) (buf : Bytes) : Bytes :=
  buf.take key ++ (cstr (buf.drop key)).map tolower ++
    buf.drop (key + (cstr (buf.drop key)).length)

/-- One round of the loop of `HttpConnection_parse_headers`. -/
def headerLine (headerEnd : ℕ) (st : HeaderState) : LineResult :=
  match strstr crlf (st.buf.drop st.p) with
  | none => .reject
  | some lineLen =>
      let eol := st.p + lineLen
      let line := (st.buf.drop st.p).take lineLen
      if eol > headerEnd then .reject
      else if lineLen = 0 then .stop
      else if cr ∈ line ∨ lf ∈ line then .reject
      else
        match memchr colonByte line with
        | none => .reject
        | some nameLen =>
            if nameLen = 0 then .reject
            else if !(line.take nameLen).all httpIsTchar then .reject
            else
              let colon := st.p + nameLen
              -- `*colon = 0`, then the name in lower case
              let named := lowerCaseAt st.p (st.buf.set colon 0)
              let val := colon + 1 + ((named.drop (colon + 1)).takeWhile isBlank).length
              -- `*eol = 0`
              let cut := named.set eol 0
              let key := cstr (cut.drop st.p)
              let value := cstr (cut.drop val)
              if key = contentLengthName ∧ st.hasCl then .reject
              else
                let hasCl := st.hasCl || key = contentLengthName
                let hasTe := st.hasTe || key = transferEncodingName
                if hasCl && hasTe then .reject
                else .next ⟨cut, eol + 2, hasCl, hasTe, st.headers.put key value⟩

/-- The loop `while (p < header_end)`, for at most `fuel` rounds; `none` when the function
returns 0. -/
def headerLoop (headerEnd : ℕ) : ℕ → HeaderState → Option HeaderState
  | 0, st => some st
  | fuel + 1, st =>
      if st.p < headerEnd then
        match headerLine headerEnd st with
        | .reject => none
        | .stop => some st
        | .next st => headerLoop headerEnd fuel st
      else some st

/-- `HttpConnection_parse_headers` on the buffer and the map of the request: the edited
buffer and the filled map, or `none` for 0. Every round moves `p` forward, so the loop takes
fewer rounds than `header_end` bytes. -/
def parseHeaders (buf : Bytes) (headerEnd : ℕ) (headers : HashMap Bytes) :
    Option (Bytes × HashMap Bytes) :=
  match strstr crlf buf with
  | none => some (buf, headers)
  | some p =>
      if p ≥ headerEnd then some (buf, headers)
      else
        match headerLoop headerEnd headerEnd ⟨buf, p + 2, false, false, headers⟩ with
        | none => none
        | some st => if st.hasTe then none else some (st.buf, st.headers)

end HttpServer
