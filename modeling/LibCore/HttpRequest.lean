import LibCore.HttpHeaders

/-!
# Requests of the HTTP Server

The part of `HttpConnection_on_readable` that turns a complete header block into a request:
the request line with its method, path and query, the header fields, the connection option
and the content length, with the replies a malformed block is answered with.

The form, JSON and multipart views of a body are left out: they are computed from the header
map and the body and decide nothing here.

## Main definitions

* `Request`, `Reply`: a request, and the answers to a block that gives none.
* `urlDecodeQueryComponent`, `parseQuery`: the query string.
* `parseContentLengthStrict`: the strict reader of a content length.
* `parseRequest`: from the header block to the request.
-/

open CString

namespace HttpServer

/-- `HttpMethod` of `http_message.h`. -/
inductive HttpMethod where
  | get | post | put | delete | patch | options | head | unknown
deriving DecidableEq

/-- `HttpRequest`, as far as `HttpConnection_on_readable` fills it. -/
structure Request where
  method : HttpMethod
  path : Bytes
  query : HashMap Bytes
  headers : HashMap Bytes
  /-- The bytes of the body received so far. -/
  body : Bytes
  /-- `body_len`, the content length of the header. -/
  bodyLen : ℕ

/-- The answers the connection sends by itself before it closes. -/
inductive Reply where
  | badRequest | payloadTooLarge | uriTooLong | headerFieldsTooLarge | serviceUnavailable
deriving DecidableEq

/-- The texts of these answers, without the line ends `\r\n`. -/
def Reply.lines : Reply → List String
  | .badRequest => ["HTTP/1.1 400 Bad Request", "Content-Length: 0", "Connection: close", ""]
  | .payloadTooLarge =>
      ["HTTP/1.1 413 Payload Too Large", "Content-Length: 0", "Connection: close", ""]
  | .uriTooLong => ["HTTP/1.1 414 URI Too Long", "Content-Length: 0", "Connection: close", ""]
  | .headerFieldsTooLarge =>
      ["HTTP/1.1 431 Request Header Fields Too Large", "Connection: close", ""]
  | .serviceUnavailable => ["HTTP/1.1 503 Service Unavailable", "Connection: close", ""]

/-- `MAX_HTTP_BODY_SIZE`. -/
def maxHttpBodySize : ℕ := 10 * 1024 * 1024

/-! ### The query -/

/-- `hex_value`. -/
def hexValue (c : UInt8) : Option UInt8 := if isxdigit c then some (hexDigit c) else none

/-- `url_decode_query_component`: the decoded text, or `none` for 0. -/
def urlDecodeQueryComponent : Bytes → Option Bytes
  | [] => some []
  | c :: s =>
      if c = 0x25 then
        match s with
        | h :: l :: s =>
            match hexValue h, hexValue l with
            | some hi, some lo =>
                if hi * 16 + lo = 0 then none
                else (urlDecodeQueryComponent s).map ((hi * 16 + lo) :: ·)
            | _, _ => none
        | _ => none
      else if c = 0x2B then (urlDecodeQueryComponent s).map (0x20 :: ·)
      else (urlDecodeQueryComponent s).map (c :: ·)

/-- The tokens `strtok_r` finds between the separators: the empty ones are skipped. -/
def strtok (sep : UInt8) (s : Bytes) : List Bytes := (s.splitOn sep).filter (· ≠ [])

/-- The loop over the tokens of the query; a token without `=` is skipped. -/
def parseQuery : List Bytes → HashMap Bytes → Option (HashMap Bytes)
  | [], query => some query
  | token :: tokens, query =>
      match memchr 0x3D token with
      | none => parseQuery tokens query
      | some eq =>
          match urlDecodeQueryComponent (token.take eq),
            urlDecodeQueryComponent (token.drop (eq + 1)) with
          | some key, some value => parseQuery tokens (query.put key value)
          | _, _ => none

/-! ### The content length -/

/-- `ContentLengthParseResult`, with the value of `CL_PARSE_OK`. -/
inductive ContentLength where
  | ok (v : ℕ)
  | invalid
  | tooLarge
deriving DecidableEq

/-- The loop of `parse_content_length_strict`. -/
def contentLengthLoop : ℕ → Bytes → ContentLength
  | v, [] => .ok v
  | v, c :: s =>
      if c < 0x30 ∨ 0x39 < c then .invalid
      else
        let d := c.toNat - 0x30
        if v > (maxHttpBodySize - d) / 10 then .tooLarge else contentLengthLoop (v * 10 + d) s

/-- `parse_content_length_strict`. -/
def parseContentLengthStrict (s : Bytes) : ContentLength :=
  if s = [] then .invalid else contentLengthLoop 0 s

/-! ### The request -/

/-- The comparisons with the method names. -/
def methodOf (name : Bytes) : HttpMethod :=
  if name = ascii ['G', 'E', 'T'] then .get
  else if name = ascii ['P', 'O', 'S', 'T'] then .post
  else if name = ascii ['P', 'U', 'T'] then .put
  else if name = ascii ['D', 'E', 'L', 'E', 'T', 'E'] then .delete
  else if name = ascii ['H', 'E', 'A', 'D'] then .head
  else .unknown

/-- Method, path and query string of the request line. -/
structure RequestLine where
  method : HttpMethod
  path : Bytes
  queryString : Bytes

/-- The checks on the request line: two spaces before its end, a method of 1 to 15 bytes and
a target of 1 to 2047 bytes. The target is cut at its first question mark. -/
def parseRequestLine (buf : Bytes) : Except Reply RequestLine :=
  match strstr crlf buf, strchr 0x20 buf with
  | some lineEnd, some firstSpace =>
      if firstSpace ≥ lineEnd then .error .badRequest
      else if firstSpace = 0 ∨ firstSpace ≥ 16 then .error .badRequest
      else
        let afterMethod := (buf.take lineEnd).drop (firstSpace + 1)
        match memchr 0x20 afterMethod with
        | none => .error .badRequest
        | some targetLen =>
            if targetLen = 0 ∨ targetLen ≥ 2048 then .error .uriTooLong
            else
              let target := afterMethod.take targetLen
              let path := target.takeWhile (· ≠ 0x3F)
              .ok ⟨methodOf (buf.take firstSpace), path, target.drop (path.length + 1)⟩
  | _, _ => .error .badRequest

/-- The name `connection`. -/
def connectionName : Bytes := ascii ['c', 'o', 'n', 'n', 'e', 'c', 't', 'i', 'o', 'n']

/-- A request whose header block has been read, and whether the connection is kept. -/
structure ParsedRequest where
  req : Request
  keepAlive : Bool

/-- From a complete header block to the request: request line, query, header fields,
connection option and content length, in the order of the source. -/
def parseRequest (buf : Bytes) (headerEnd : ℕ) : Except Reply (Bytes × ParsedRequest) :=
  match parseRequestLine buf with
  | .error e => .error e
  | .ok line =>
      match parseQuery (strtok 0x26 line.queryString) (HashMap.new 16) with
      | none => .error .badRequest
      | some query =>
          match parseHeaders buf headerEnd (HashMap.new 32) with
          | none => .error .badRequest
          | some (buf, headers) =>
              let keepAlive := !(headers.get connectionName).any
                fun v => v.map tolower = ascii ['c', 'l', 'o', 's', 'e']
              match (headers.get contentLengthName).map parseContentLengthStrict with
              | some .invalid => .error .badRequest
              | some .tooLarge => .error .payloadTooLarge
              | some (.ok n) =>
                  .ok (buf, ⟨⟨line.method, line.path, query, headers, [], n⟩, keepAlive⟩)
              | none => .ok (buf, ⟨⟨line.method, line.path, query, headers, [], 0⟩, keepAlive⟩)

end HttpServer
