import LibCore.ByteBuffer
import LibCore.HttpTransport
import LibCore.Radix

/-!
# The Response Parser of the HTTP Client

`HttpResponseParser_parse_with_options` of `http_response_parser.c`: the status line with its interim
responses, the header block, and the body, which is chunked, of a given length, or all that comes
before the end of the stream. Lines go through `line[4096]`; a line is a C string, since `recv_line`
fails on a NUL. Allocations succeed.

The three header loops of the source, for interim responses, headers and trailers, are one definition
with what each does with a line, `headerLoop`. A loop with a counter that stops it runs on what is left
of the counter.

## Main definitions

* `parseContentLength`, `parseChunkSize`, `scanStatus`: the numbers.
* `statusLoop`, `headerLoop`, `chunkLoop`, `lengthLoop`, `eofLoop`: the loops of the parser.
* `parseWithOptions`: the parser.
-/

open CString HttpServer

namespace HttpResponseParser

/-- `HTTP_MAX_BODY`. -/
def httpMaxBody : ℕ := ByteBuffer.maxCapacity

/-- `HTTP_INITIAL_BODY_CAP`. -/
def httpInitialBodyCap : ℕ := 16 * 1024

/-- `HTTP_MAX_HEADER_COUNT`. -/
def httpMaxHeaderCount : ℕ := 100

/-- `HTTP_MAX_HEADER_BYTES`. -/
def httpMaxHeaderBytes : ℕ := 64 * 1024

/-- `HTTP_MAX_INFORMATIONAL`. -/
def httpMaxInformational : ℕ := 10

/-- `SIZE_MAX`. -/
def sizeMax : ℕ := 2 ^ 64 - 1

/-- `sizeof(line)`. -/
def lineSize : ℕ := 4096

/-! ### Numbers -/

/-- A round of a digit loop: `none` when the value would pass the limit. -/
def pushDigit (base limit value digit : ℕ) : Option ℕ :=
  if value > limit / base ∨ (value = limit / base ∧ digit > limit % base) then none
  else some (value * base + digit)

/-- `parse_content_length`. -/
def parseContentLength (s : Bytes) (maxLimit : ℕ) : Option ℕ := do
  let s := s.dropWhile isBlank
  let digits := s.takeWhile isdigit
  let value ← digits.foldlM (fun value c => pushDigit 10 maxLimit value (c.toNat - 0x30)) 0
  if digits ≠ [] ∧ (s.dropWhile isdigit).dropWhile isBlank = [] then some value else none

/-- The characters that end the digits of a chunk size: `';'`, blanks, CR and LF. -/
def isChunkStop (c : UInt8) : Bool := c = 0x3B || isBlank c || c = cr || c = lf

/-- A round of the digit loop of `parse_chunk_size`. -/
def pushHexDigit (value : ℕ) (c : UInt8) : Option ℕ :=
  if isxdigit c then pushDigit 16 sizeMax value (hexDigit c).toNat else none

/-- `parse_chunk_size`. -/
def parseChunkSize (s : Bytes) : Option ℕ := do
  let digits := s.takeWhile (!isChunkStop ·)
  let rest := (s.dropWhile (!isChunkStop ·)).dropWhile isBlank
  -- a blank or a sign in front, or the prefix of a hexadecimal literal
  if s.head?.any (fun c => isBlank c || c = 0x2B || c = 0x2D) then none
  else if s.take 2 = [0x30, 0x78] ∨ s.take 2 = [0x30, 0x58] then none
  else
    let value ← digits.foldlM pushHexDigit 0
    if digits ≠ [] ∧ rest.head?.all (· = 0x3B) then some value else none

/-- `%d` of `sscanf`: white space, a sign and at least one digit, of any value. -/
def scanDecimal (s : Bytes) : Option (ℤ × Bytes) :=
  let s := s.dropWhile isspace
  let signed := s.head?.any fun c => c = 0x2B || c = 0x2D
  let s' := if signed then s.tail else s
  let digits := s'.takeWhile isdigit
  let value : ℤ := Radix.decimalValue digits
  if digits = [] then none
  else some (if s.head? = some 0x2D then -value else value, s'.dropWhile isdigit)

/-- What `sscanf` stores for a number: the value saturated to a `long` and cut to an `int`. -/
def storedInt (value : ℤ) : ℤ := (max (-2 ^ 63) (min (2 ^ 63 - 1) value)).bmod (2 ^ 32)

/-- The text `HTTP/1.`. -/
def versionPrefix : Bytes := ascii ['H', 'T', 'T', 'P', '/', '1', '.']

/-- `sscanf(line, "HTTP/1.%*d %d", &parsed_status)`: `none` unless it returns 1. -/
def scanStatus (line : Bytes) : Option ℤ :=
  if versionPrefix.isPrefixOf line then do
    let minor ← scanDecimal (line.drop versionPrefix.length)
    let status ← scanDecimal (minor.2.dropWhile isspace)
    some (storedInt status.1)
  else none

/-! ### Lines -/

/-- Receive a line into `line`, or reject. -/
def readLine : Reader HttpTransport HttpTransport.Received :=
  Reader.orReject (HttpTransport.recvLine lineSize)

/-- The loop over the lines of a header block, when `left` lines may still come and `bytes` bytes of
them have. `step` is what the loop does with a line, and a strict loop wants every line to end in
CRLF. -/
def headerLoop {σ : Type} (strict : Bool) (step : σ → Bytes → Option σ) (left bytes : ℕ) (st : σ) :
    Reader HttpTransport σ := do
  let r ← readLine
  if strict && r.ret - r.line.length != 2 then Reader.reject
  else if r.line = [] then pure st
  else
    match left with
    | 0 => Reader.reject
    | left + 1 =>
        if r.ret > httpMaxHeaderBytes - bytes then Reader.reject
        else
          match step st r.line with
          | none => Reader.reject
          | some st => headerLoop strict step left (bytes + r.ret) st

/-- The loop that skips the headers of an interim response. -/
def interimLoop : Reader HttpTransport Unit :=
  headerLoop false (fun _ _ => some ()) httpMaxHeaderCount 0 ()

/-- The loop that skips the trailers. -/
def trailerLoop : Reader HttpTransport Unit :=
  headerLoop true (fun _ _ => some ()) httpMaxHeaderCount 0 ()

/-- The loop around the status line, when `left` interim responses may still come. -/
def statusLoop (left : ℕ) (line : Bytes) : Reader HttpTransport ℤ :=
  match scanStatus line with
  | none => Reader.reject
  | some status =>
      if status < 100 ∨ 999 < status then Reader.reject
      else if status = 101 then Reader.reject
      else if status < 200 then
        match left with
        | 0 => Reader.reject
        | left + 1 => do
            interimLoop
            let r ← readLine
            statusLoop left r.line
      else pure status

/-! ### Headers -/

/-- What the header loop keeps: the headers and cookies of the response, and its local variables. -/
structure Head where
  headers : HashMap Bytes
  cookies : List Bytes
  contentLength : ℕ
  hasContentLength : Bool
  contentLengthExceedsBodyCap : Bool
  contentLengthConflict : Bool
  isChunked : Bool
  hasTransferEncoding : Bool

/-- The head before the first line. -/
def Head.new : Head := ⟨HashMap.new 16, [], 0, false, false, false, false, false⟩

/-- The name `set-cookie`. -/
def setCookieName : Bytes := ascii ['s', 'e', 't', '-', 'c', 'o', 'o', 'k', 'i', 'e']

/-- The coding `chunked`. -/
def chunkedName : Bytes := ascii ['c', 'h', 'u', 'n', 'k', 'e', 'd']

/-- `strcasecmp(key, name) == 0` for a name in lower case. -/
def isName (name key : Bytes) : Bool := key.map tolower = name

/-- `strcasestr(val, name)` for a name in lower case. -/
def hasName (name val : Bytes) : Bool := (strstr name (val.map tolower)).isSome

/-- A content length that could be read. -/
def Head.addLength (st : Head) (n : ℕ) : Head :=
  { st with
    contentLengthExceedsBodyCap := st.contentLengthExceedsBodyCap || n > httpMaxBody
    contentLength := if st.hasContentLength then st.contentLength else n
    hasContentLength := true
    contentLengthConflict :=
      st.contentLengthConflict || (st.hasContentLength && n != st.contentLength) }

/-- A transfer encoding. -/
def Head.addEncoding (st : Head) (val : Bytes) : Head :=
  { st with
    hasTransferEncoding := true
    isChunked := st.isChunked || hasName chunkedName val }

/-- What the header loop does with a line; `none` when it rejects. -/
def headerStep (st : Head) (line : Bytes) : Option Head :=
  match memchr colonByte line with
  | none => some st
  | some colon => do
      let key := line.take colon
      let rawVal := line.drop (colon + 1)
      let val := rawVal.dropWhile isspace
      let cookies := if isName setCookieName key then st.cookies ++ [val] else st.cookies
      let st := { st with headers := st.headers.put key val, cookies := cookies }
      let st ←
        if isName contentLengthName key then (parseContentLength rawVal sizeMax).map st.addLength
        else some st
      some (if isName transferEncodingName key then st.addEncoding val else st)

/-! ### The body -/

/-- The loop that writes the next `n` bytes to `body_buf`. -/
def lengthLoop : ℕ → ByteBuffer → Reader HttpTransport ByteBuffer
  | 0, buf => pure buf
  | n + 1, buf => do
      let c ← Reader.orReject HttpTransport.getc
      let w := buf.writeByte c
      if w.2 then lengthLoop n w.1 else Reader.reject

/-- The next byte has to be `c`. -/
def expectByte (c : UInt8) : Reader HttpTransport Unit := do
  let r ← HttpTransport.getc
  if r = some c then pure () else Reader.reject

/-- The loop over the chunks, after `total` bytes, for at most `fuel` chunks: a chunk has at least one
byte, so there are no more than `HTTP_MAX_BODY` of them. -/
def chunkLoop : ℕ → ℕ → ByteBuffer → Reader HttpTransport ByteBuffer
  | 0, _, _ => fun _ => .hangs
  | fuel + 1, total, buf => do
      let r ← readLine
      if r.ret - r.line.length ≠ 2 then Reader.reject
      else
        match parseChunkSize r.line with
        | none => Reader.reject
        | some chunkSize =>
            if chunkSize = 0 then do
              trailerLoop
              pure buf
            else if chunkSize > httpMaxBody - total then Reader.reject
            else do
              let buf ← lengthLoop chunkSize buf
              expectByte cr
              expectByte lf
              chunkLoop fuel (total + chunkSize) buf

/-- The loop that reads until the end of the stream, when `left` bytes may still come. -/
def eofLoop (left : ℕ) (buf : ByteBuffer) : Reader HttpTransport ByteBuffer := do
  match ← HttpTransport.getc with
  | none => pure buf
  | some c =>
      match left with
      | 0 => Reader.reject
      | left + 1 =>
          let w := buf.writeByte c
          if w.2 then eofLoop left w.1 else Reader.reject

/-- The capacity `body_buf` starts with. -/
def Head.initialCap (st : Head) : ℕ :=
  if st.hasContentLength then
    if st.contentLength > 0 then
      if st.contentLength < httpInitialBodyCap then st.contentLength else httpInitialBodyCap
    else 1
  else httpInitialBodyCap

/-- The body of a response that has one. -/
def readBody (st : Head) : Reader HttpTransport Bytes :=
  if st.hasContentLength && st.hasTransferEncoding then Reader.reject
  else if st.contentLengthConflict then Reader.reject
  else if st.hasContentLength && st.contentLengthExceedsBodyCap then Reader.reject
  else do
    let bodyBuf := ByteBuffer.new st.initialCap
    let bodyBuf ←
      if st.isChunked then chunkLoop (httpMaxBody + 1) 0 bodyBuf
      else if st.hasContentLength then lengthLoop st.contentLength bodyBuf
      else eofLoop httpMaxBody bodyBuf
    pure bodyBuf.data

/-! ### The parser -/

/-- `HttpClientResponse`. -/
structure HttpClientResponse where
  statusCode : ℤ
  headers : HashMap Bytes
  cookies : List Bytes
  body : Bytes

/-- The method `HEAD`. -/
def headMethod : Bytes := ascii ['H', 'E', 'A', 'D']

/-- The variable `has_body`. -/
def hasBody (requestMethod : Option Bytes) (status : ℤ) : Bool :=
  requestMethod ≠ some headMethod ∧ status ≠ 204 ∧ status ≠ 304

/-- The first status line: the one the caller has read, cut to the buffer, or the next line. -/
def firstLine (initialStatusLine : Option Bytes) : Reader HttpTransport Bytes :=
  match initialStatusLine with
  | some (c :: line) => pure ((c :: line).take (lineSize - 1))
  | _ => do
      let r ← readLine
      pure r.line

/-- `HttpResponseParser_parse_with_options`. -/
def parseWithOptions (initialStatusLine requestMethod : Option Bytes) :
    Reader HttpTransport HttpClientResponse := do
  let line ← firstLine initialStatusLine
  let status ← statusLoop httpMaxInformational line
  let head ← headerLoop false headerStep httpMaxHeaderCount 0 Head.new
  let body ← if hasBody requestMethod status then readBody head else pure []
  pure ⟨status, head.headers, head.cookies, body⟩

/-- `HttpResponseParser_parse`. -/
def parse : Reader HttpTransport HttpClientResponse := parseWithOptions none none

end HttpResponseParser
