import LibCore.CInt
import LibCore.HashMap
import LibCore.Utf8

/-!
# JSON: Trees, Printer and Parser

This module embeds `json.c`. A tree is built of `JsonValue` leaves, `ArrayList`s and
`HashMap`s, and `JSONNode` wrappers around them. `impl_stringify` prints a tree,
`parse_JSON` reads one.

The parser moves one pointer through a NUL-terminated text. Here `ctx->ptr` is the list of
the bytes from it to the NUL, so `*(ctx->ptr)` is its head and the end of the list is the
NUL. An error carries the length of that list where it was reported, from which
`report_error` counts lines and columns. Allocation succeeds, but for one request:
`parse_string_raw` counts the body of a literal in an `int`, and from `2 ^ 31` bytes on the size it
asks for is out of range. (From `2 ^ 32` bytes on the size has wrapped and the buffer is too short;
such a literal is refused here as well.)

A `double` is opaque: `D` and the operations of `Double D` stand for it. How many bytes
`strtod` consumes does not depend on the value and is given in full.

## Main definitions

* `Obj`: the trees.
* `stringifyRecursive`, `implStringify`: the printer with its depth limit.
* `parseStringRaw`, `parseNumber`, `parseValue`, `parseMembers`, `parseElements`,
  `parseJSON`: the parser, its loops and its entry point.
-/

open CString

namespace Json

/-- `MAX_JSON_DEPTH`. -/
def maxJsonDepth : ℕ := 64

/-- What the code asks of a `double`. -/
structure Double (D : Type) where
  /-- The value `strtod` gives for a number token, and whether it sets `ERANGE`. -/
  strtod : Bytes → D × Bool
  isZero : D → Bool
  isinf : D → Bool
  isnan : D → Bool
  /-- `snprintf` with `%g`. -/
  formatG : D → Bytes

/-- Natural numbers in the place of doubles, for closed examples: a token is read by its
digits and printed in decimal. -/
def natDouble : Double ℕ where
  strtod token := ((token.filter isdigit).foldl (fun n c => n * 10 + (c.toNat - 0x30)) 0, false)
  isZero n := n = 0
  isinf _ := false
  isnan _ := false
  formatG n := ascii (Nat.toDigits 10 n)

/-- The objects of a tree. A `J_STRING` value holds its exact bytes, which may contain
NULs. -/
inductive Obj (D : Type) where
  | jString (string : Bytes)
  | jNumber (number : D)
  | jBool (boolean : Bool)
  | jNull
  | arrayList (items : List (Obj D))
  | hashMap (map : HashMap (Obj D))
  | jsonNode (isObjectFlag isArrayFlag : Bool) (coreData : Obj D)

/-- `'"'`. -/
abbrev quote : UInt8 := 0x22

/-- The backslash. -/
abbrev backslash : UInt8 := 0x5C

/-- `','`. -/
abbrev comma : UInt8 := 0x2C

/-! ### The printer

Every function returns the bytes it appends to the `StringBuilder`. -/

/-- The branches of `sb_append_escaped`. -/
def escapeByte (c : UInt8) : Bytes :=
  if c = quote then [backslash, quote]
  else if c = backslash then [backslash, backslash]
  else if c = 0x08 then [backslash, 0x62]
  else if c = 0x0C then [backslash, 0x66]
  else if c = 0x0A then [backslash, 0x6E]
  else if c = 0x0D then [backslash, 0x72]
  else if c = 0x09 then [backslash, 0x74]
  else [c]

/-- `sb_append_escaped` walks a C string. -/
def sbAppendEscaped (str : Bytes) : Bytes :=
  quote :: ((cstr str).flatMap escapeByte ++ [quote])

/-- Put a comma before every item but the first. -/
def commaSeparated : List Bytes → Bytes
  | [] => []
  | [item] => item
  | item :: items => item ++ comma :: commaSeparated items

/-- The text `stringify_recursive` writes in place of a node that lies too deep. -/
def depthMarker : Bytes :=
  quote :: (ascii ['#', 'D', 'E', 'P', 'T', 'H', '_', 'L', 'I', 'M', 'I', 'T', '_', 'E', 'X', 'C',
    'E', 'E', 'D', 'E', 'D', '#'] ++ [quote])

/-- `JsonValue_ToString` on a boolean. -/
def boolText (b : Bool) : Bytes :=
  if b then ascii ['t', 'r', 'u', 'e'] else ascii ['f', 'a', 'l', 's', 'e']

/-- `JsonValue_ToString` on a null. -/
def nullText : Bytes := ascii ['n', 'u', 'l', 'l']

variable {D : Type}

/-- `stringify_recursive` with `levels` levels left before the depth limit. The marker is a
parameter, so that a statement can say that it is not used. -/
def stringifyLevels (dbl : Double D) (marker : Bytes) : ℕ → Obj D → Bytes
  | 0, _ => marker
  | _ + 1, .jString s => sbAppendEscaped s
  | _ + 1, .jNumber d => dbl.formatG d
  | _ + 1, .jBool b => boolText b
  | _ + 1, .jNull => nullText
  | levels + 1, .jsonNode _ _ core => stringifyLevels dbl marker levels core
  | levels + 1, .arrayList items =>
      0x5B :: (commaSeparated (items.map (stringifyLevels dbl marker levels)) ++ [0x5D])
  | levels + 1, .hashMap map =>
      0x7B :: (commaSeparated (map.entries.map fun node =>
        sbAppendEscaped node.1 ++ 0x3A :: stringifyLevels dbl marker levels node.2) ++ [0x7D])

/-- `stringify_recursive`: a node at a depth above the limit is replaced by the marker. -/
def stringifyRecursive (dbl : Double D) (marker : Bytes) (obj : Obj D) (depth : ℕ) : Bytes :=
  stringifyLevels dbl marker (maxJsonDepth + 1 - depth) obj

/-- `impl_stringify`. -/
def implStringify (dbl : Double D) (obj : Obj D) : Bytes :=
  stringifyRecursive dbl depthMarker obj 0

/-! ### Errors -/

/-- How parsing ends without a value: silently (`parse_value` at the end of the text), with
the first error reported, with its message and the number of bytes after `ctx->ptr`, or, in
this embedding only, out of fuel. -/
inductive Stop where
  | silent
  | reported (msg : String) (left : ℕ)
  | outOfFuel
deriving DecidableEq

/-- A parsing function returns a value and the text after it. -/
abbrev Parsed (α : Type) := Except Stop (α × Bytes)

/-- `report_error` with `ctx->ptr` at `ptr`. -/
def reportError {α : Type} (msg : String) (ptr : Bytes) : Parsed α :=
  .error (.reported msg ptr.length)

@[simp] theorem reportError_ne_ok {α : Type} {msg : String} {ptr : Bytes} {r : α × Bytes} :
    reportError msg ptr ≠ .ok r := by
  simp [reportError]

/-- `skip_ws`. -/
def skipWs (ptr : Bytes) : Bytes := ptr.dropWhile isspace

/-- `is_valid_boundary`, at the head of the text. -/
def isValidBoundary : Bytes → Bool
  | [] => true
  | c :: _ => isspace c || c = comma || c = 0x7D || c = 0x5D

/-! ### Strings -/

/-- `hex_to_int`. -/
def hexToInt (c : UInt8) : Option ℕ :=
  if isxdigit c then some (hexDigit c).toNat else none

/-- A hexadecimal digit stands for itself in a literal. -/
theorem plain_of_isxdigit {c : UInt8} (h : isxdigit c = true) :
    c ≠ quote ∧ c ≠ backslash ∧ 0x20 ≤ c := by
  grind

/-- And so does a byte from `0x80` on. -/
theorem plain_of_high {c : UInt8} (h : 0x80 ≤ c) : c ≠ quote ∧ c ≠ backslash ∧ 0x20 ≤ c := by
  grind

/-- The first loop of `parse_string_raw`: find the closing quote. The result is the body of
the literal and the text after the quote. -/
def scanString : Bytes → Parsed Bytes
  | [] => reportError "Unterminated string!" []
  | c :: s =>
      if c = quote then .ok ([], s)
      else if c = backslash then
        match s with
        | [] => reportError "Unterminated string!" []
        | d :: s => (scanString s).map fun (body, rest) => (c :: d :: body, rest)
      else if c ≤ 0x1F then reportError "Unescaped control character in string!" (c :: s)
      else (scanString s).map fun (body, rest) => (c :: body, rest)

/-- The loop over the four digits of a Unicode escape; on failure, where `src` stands. -/
def hexLoop : ℕ → ℕ → Bytes → Except Bytes (ℕ × Bytes)
  | 0, cp, src => .ok (cp, src)
  | _ + 1, _, [] => .error []
  | i + 1, cp, c :: src =>
      match hexToInt c with
      | none => .error (c :: src)
      | some h => hexLoop i (cp * 16 + h) src

/-- The bytes written for a code point. -/
def encodeUtf8 (cp : ℕ) : Bytes :=
  if cp ≤ 0x7F then [UInt8.ofNat cp]
  else if cp ≤ 0x7FF then [UInt8.ofNat (0xC0 + cp / 64), UInt8.ofNat (0x80 + cp % 64)]
  else if cp ≤ 0xFFFF then
    [UInt8.ofNat (0xE0 + cp / 4096), UInt8.ofNat (0x80 + cp / 64 % 64),
      UInt8.ofNat (0x80 + cp % 64)]
  else
    [UInt8.ofNat (0xF0 + cp / 262144), UInt8.ofNat (0x80 + cp / 4096 % 64),
      UInt8.ofNat (0x80 + cp / 64 % 64), UInt8.ofNat (0x80 + cp % 64)]

/-- What follows a backslash and a `u` in the second loop of `parse_string_raw`. -/
def decodeUnicode (src : Bytes) : Parsed Bytes :=
  match hexLoop 4 0 src with
  | .error src => reportError "Invalid unicode escape!" src
  | .ok (cp, src) =>
      if 0xD800 ≤ cp ∧ cp ≤ 0xDBFF then
        if src.length > 5 ∧ src.take 2 = [backslash, 0x75] then
          match hexLoop 4 0 (src.drop 2) with
          | .error src => reportError "Invalid low surrogate pair!" src
          | .ok (cp2, src) =>
              if 0xDC00 ≤ cp2 ∧ cp2 ≤ 0xDFFF then
                .ok (encodeUtf8 (0x10000 + (cp - 0xD800) * 1024 + (cp2 - 0xDC00)), src)
              else reportError "Invalid low surrogate pair!" src
        else reportError "Missing low surrogate pair!" src
      else if 0xDC00 ≤ cp ∧ cp ≤ 0xDFFF then reportError "Isolated low surrogate!" src
      else .ok (encodeUtf8 cp, src)

/-- The escapes other than `u`; an unknown one stands for its own byte. -/
def decodeEscape (c : UInt8) : UInt8 :=
  if c = 0x62 then 0x08
  else if c = 0x66 then 0x0C
  else if c = 0x6E then 0x0A
  else if c = 0x72 then 0x0D
  else if c = 0x74 then 0x09
  else c

/-- The end of the multi-byte branch: enough bytes, continuation bytes, and the copy. -/
def copySequence (expectedLen : ℕ) (src : Bytes) : Parsed Bytes :=
  if src.length < expectedLen then reportError "Incomplete UTF-8 sequence!" src
  else if ((src.take expectedLen).drop 1).any (!Utf8.isCont ·) then
    reportError "Invalid UTF-8 continuation byte!" src
  else .ok (src.take expectedLen, src.drop expectedLen)

/-- The multi-byte branch of the second loop of `parse_string_raw`: `byte1` is at least
`0x80` and `s` follows it. The second byte is examined only where it lies before the closing
quote. -/
def decodeSequence (byte1 : UInt8) (s : Bytes) : Parsed Bytes :=
  let src := byte1 :: s
  if byte1 &&& 0xE0 = 0xC0 then
    if s ≠ [] ∧ (byte1 = 0xC0 ∨ byte1 = 0xC1) then
      reportError "Overlong UTF-8 sequence detected!" src
    else copySequence 2 src
  else if byte1 &&& 0xF0 = 0xE0 then
    if byte1 = 0xE0 ∧ s.head?.any (· < 0xA0) then
      reportError "Overlong UTF-8 sequence detected!" src
    else if byte1 = 0xED ∧ s.head?.any (0xA0 ≤ ·) then
      reportError "UTF-16 surrogate directly encoded in UTF-8!" src
    else copySequence 3 src
  else if byte1 &&& 0xF8 = 0xF0 then
    if 0xF4 < byte1 then reportError "UTF-8 sequence exceeds U+10FFFF!" src
    else if byte1 = 0xF0 ∧ s.head?.any (· < 0x90) then
      reportError "Overlong UTF-8 sequence detected!" src
    else if byte1 = 0xF4 ∧ s.head?.any (0x90 ≤ ·) then
      reportError "UTF-8 sequence exceeds U+10FFFF!" src
    else copySequence 4 src
  else reportError "Invalid UTF-8 starting byte!" src

/-- One round of the second loop of `parse_string_raw`: the bytes written and where `src`
stands afterwards. Behind a backslash that ends the body stands the closing quote. -/
def decodeStep : Bytes → Parsed Bytes
  | [] => .ok ([], [])
  | c :: src =>
      if c = backslash then
        match src with
        | [] => .ok ([quote], [])
        | d :: src => if d = 0x75 then decodeUnicode src else .ok ([decodeEscape d], src)
      else if 0x80 ≤ c then decodeSequence c src
      else .ok ([c], src)

/-- The second loop of `parse_string_raw`, for at most `fuel` rounds. -/
def decodeLoop : ℕ → Bytes → Except Stop Bytes
  | _, [] => .ok []
  | 0, _ :: _ => .error .outOfFuel
  | fuel + 1, c :: src =>
      match decodeStep (c :: src) with
      | .error e => .error e
      | .ok (out, src) => (decodeLoop fuel src).map (out ++ ·)

/-- `parse_string_raw` with `ctx->ptr` behind the opening quote. An error inside the body is
reported at `src`, which is followed by the rest of the body, the quote and the text. -/
def parseStringRaw (start : Bytes) : Parsed Bytes :=
  match scanString start with
  | .error e => .error e
  | .ok (body, rest) =>
      if FitsInt body.length then
        match decodeLoop body.length body with
        | .ok str => .ok (str, rest)
        | .error (.reported msg left) => .error (.reported msg (left + 1 + rest.length))
        | .error e => .error e
      else reportError "OOM in parse_string_raw buffer allocation!" rest

/-! ### Numbers -/

/-- The length of a leading run of bytes of one class. -/
def spanLen (p : UInt8 → Bool) (s : Bytes) : ℕ := (s.takeWhile p).length

/-- Whether the text starts with a word, in any letter case. -/
def startsWithWord (word s : Bytes) : Bool := (s.take word.length).map tolower = word

/-- The exponent part of a number: a letter, an optional sign and digits, or nothing. -/
def exponentLen (letter : UInt8) (s : Bytes) : ℕ :=
  if startsWithWord [letter] s then
    let sign := if (s.drop 1).head?.any fun c => c = 0x2B || c = 0x2D then 1 else 0
    let digits := spanLen isdigit (s.drop (1 + sign))
    if digits = 0 then 0 else 1 + sign + digits
  else 0

/-- Digits with an optional point, at least one digit, and an optional exponent. -/
def mantissaLen (digit : UInt8 → Bool) (letter : UInt8) (s : Bytes) : ℕ :=
  let whole := spanLen digit s
  let point := if (s.drop whole).head? = some 0x2E then 1 else 0
  let frac := if point = 1 then spanLen digit (s.drop (whole + 1)) else 0
  if whole + frac = 0 then 0
  else whole + point + frac + exponentLen letter (s.drop (whole + point + frac))

/-- The parenthesised part of a `nan`. -/
def nanTailLen (s : Bytes) : ℕ :=
  if s.head? = some 0x28 then
    let chars := spanLen (fun c => isalnum c || c = 0x5F) (s.drop 1)
    if (s.drop (1 + chars)).head? = some 0x29 then chars + 2 else 0
  else 0

/-- The unsigned part of what `strtod` reads: an infinity, a NaN, a hexadecimal or a decimal
number. A `0x` without digits is read as the number `0`. -/
def subjectLen (s : Bytes) : ℕ :=
  if startsWithWord (ascii ['i', 'n', 'f', 'i', 'n', 'i', 't', 'y']) s then 8
  else if startsWithWord (ascii ['i', 'n', 'f']) s then 3
  else if startsWithWord (ascii ['n', 'a', 'n']) s then 3 + nanTailLen (s.drop 3)
  else if startsWithWord (ascii ['0', 'x']) s then
    let hex := mantissaLen isxdigit 0x70 (s.drop 2)
    if hex = 0 then 1 else 2 + hex
  else mantissaLen isdigit 0x65 s

/-- How many bytes `strtod` consumes in the C locale; none when there is no number. -/
def strtodLen (s : Bytes) : ℕ :=
  let blanks := spanLen isspace s
  let sign := if (s.drop blanks).head?.any fun c => c = 0x2B || c = 0x2D then 1 else 0
  let subject := subjectLen (s.drop (blanks + sign))
  if subject = 0 then 0 else blanks + sign + subject

/-- The first point of a number token has a digit behind it. -/
def pointHasDigit (token : Bytes) : Bool :=
  match token.dropWhile (· ≠ 0x2E) with
  | [] => true
  | _ :: s => s.head?.any isdigit

/-- The token ends in an exponent letter, or in a sign behind one. -/
def danglingExponent (token : Bytes) : Bool :=
  match token.reverse with
  | [] => false
  | [a] => a = 0x65 || a = 0x45
  | a :: b :: _ =>
      (a = 0x65 || a = 0x45) || ((a = 0x2B || a = 0x2D) && (b = 0x65 || b = 0x45))

/-- A zero with a digit behind it, after an optional minus. -/
def leadingZero (ptr : Bytes) : Bool :=
  let start := if ptr.head? = some 0x2D then ptr.drop 1 else ptr
  start.head? = some 0x30 && (start.drop 1).head?.any isdigit

/-- `parse_number`. -/
def parseNumber (dbl : Double D) (ptr : Bytes) : Parsed (Obj D) :=
  if leadingZero ptr then reportError "Leading zero not allowed in JSON number!" ptr
  else
    let token := ptr.take (strtodLen ptr)
    let rest := ptr.drop (strtodLen ptr)
    let d := (dbl.strtod token).1
    if strtodLen ptr = 0 then reportError "Invalid number!" ptr
    else if !pointHasDigit token then reportError "Decimal point without digit!" ptr
    else if (dbl.strtod token).2 && !dbl.isZero d then
      reportError "Number out of range (Overflow)!" ptr
    else if dbl.isinf d || dbl.isnan d then
      reportError "Number out of range (Infinity/NaN)!" ptr
    else if danglingExponent token then reportError "Invalid exponent format!" ptr
    else if !isValidBoundary rest then reportError "Invalid boundary after number!" rest
    else .ok (.jNumber d, rest)

/-! ### Values -/

/-- The words `true`, `false` and `null`, each with a boundary behind it. -/
def parseWord (ptr : Bytes) : Parsed (Obj D) :=
  if strncmpEq 4 ptr (boolText true) && isValidBoundary (ptr.drop 4) then
    .ok (.jBool true, ptr.drop 4)
  else if strncmpEq 5 ptr (boolText false) && isValidBoundary (ptr.drop 5) then
    .ok (.jBool false, ptr.drop 5)
  else if strncmpEq 4 ptr nullText && isValidBoundary (ptr.drop 4) then
    .ok (.jNull, ptr.drop 4)
  else reportError "Unexpected token!" ptr

mutual

/-- `parse_value`. -/
def parseValue (dbl : Double D) : ℕ → ℕ → Bytes → Parsed (Obj D)
  | 0, _, _ => .error .outOfFuel
  | fuel + 1, depth, ptr =>
      if depth > maxJsonDepth then reportError "Depth limit exceeded!" ptr
      else
        match skipWs ptr with
        | [] => .error .silent
        | c :: s =>
            if c = quote then
              match parseStringRaw s with
              | .error e => .error e
              | .ok (str, rest) => .ok (.jString str, rest)
            else if c = 0x2D || isdigit c then parseNumber dbl (c :: s)
            else if c = 0x7B then parseMembers dbl fuel (depth + 1) (HashMap.new 16) s
            else if c = 0x5B then parseElements dbl fuel (depth + 1) [] s
            else parseWord (c :: s)

/-- The loop of `parse_object`, with the members read so far. The key goes into the map as a
C string. -/
def parseMembers (dbl : Double D) : ℕ → ℕ → HashMap (Obj D) → Bytes → Parsed (Obj D)
  | 0, _, _, _ => .error .outOfFuel
  | fuel + 1, depth, map, ptr =>
      if ptr = [] then reportError "Unterminated object!" ptr
      else
        match skipWs ptr with
        | [] => reportError "Expected string key!" []
        | c :: s =>
            if c = 0x7D then .ok (.hashMap map, s)
            else if c ≠ quote then reportError "Expected string key!" (c :: s)
            else
              match parseStringRaw s with
              | .error e => .error e
              | .ok (key, s) =>
                  match skipWs s with
                  | [] => reportError "Expected ':'!" []
                  | c :: s =>
                      if c ≠ 0x3A then reportError "Expected ':'!" (c :: s)
                      else
                        match parseValue dbl fuel depth s with
                        | .error e => .error e
                        | .ok (val, s) =>
                            let map := map.put (cstr key) val
                            match skipWs s with
                            | [] => reportError "Expected ',' or '\x7d'!" []
                            | c :: s =>
                                if c = comma then
                                  if (skipWs s).head? = some 0x7D then
                                    reportError "Trailing comma in object!" (skipWs s)
                                  else parseMembers dbl fuel depth map (skipWs s)
                                else if c ≠ 0x7D then
                                  reportError "Expected ',' or '\x7d'!" (c :: s)
                                else parseMembers dbl fuel depth map (c :: s)

/-- The loop of `parse_array`, with the elements read so far. -/
def parseElements (dbl : Double D) : ℕ → ℕ → List (Obj D) → Bytes → Parsed (Obj D)
  | 0, _, _, _ => .error .outOfFuel
  | fuel + 1, depth, list, ptr =>
      if ptr = [] then reportError "Unterminated array!" ptr
      else if (skipWs ptr).head? = some 0x5D then .ok (.arrayList list, (skipWs ptr).drop 1)
      else
        match parseValue dbl fuel depth (skipWs ptr) with
        | .error e => .error e
        | .ok (val, s) =>
            let list := list ++ [val]
            match skipWs s with
            | [] => reportError "Expected ',' or ']'!" []
            | c :: s =>
                if c = comma then
                  if (skipWs s).head? = some 0x5D then
                    reportError "Trailing comma in array!" (skipWs s)
                  else parseElements dbl fuel depth list (skipWs s)
                else if c ≠ 0x5D then reportError "Expected ',' or ']'!" (c :: s)
                else parseElements dbl fuel depth list (c :: s)

end

/-- Enough rounds for a text: a value takes one, an array one more for each element. -/
def parseFuel (text : Bytes) : ℕ := 2 * text.length + 2

/-- The line and the column `report_error` counts for the text before `ctx->ptr`. -/
def lineAndColumn (before : Bytes) : ℕ × ℕ :=
  before.foldl (fun pos c => if c = 0x0A then (pos.1 + 1, 1) else (pos.1, pos.2 + 1)) (1, 1)

/-- The text `report_error` leaves in the error buffer. -/
def errorText (line col : ℕ) (msg : String) : String := s!"[Line {line}, Col {col}] {msg}"

/-- `is_hashmap`. -/
def isHashmap : Obj D → Bool
  | .hashMap _ => true
  | _ => false

/-- `is_arraylist`. -/
def isArraylist : Obj D → Bool
  | .arrayList _ => true
  | _ => false

/-- `parse_JSON` on the C string at the head of a buffer: the root node, or the text in
`res.error`. -/
def parseJSON (dbl : Double D) (jsonStr : Bytes) : Except String (Obj D) :=
  let text := cstr jsonStr
  if text = [] then .error "Empty input string."
  else
    match parseValue dbl (parseFuel text) 0 text with
    | .error (.reported msg left) =>
        let pos := lineAndColumn (text.take (text.length - left))
        .error (errorText pos.1 pos.2 msg)
    | .error _ => .error "Empty or whitespace-only JSON."
    | .ok (parsed, rest) =>
        if skipWs rest ≠ [] then .error "Garbage data after root element."
        else .ok (.jsonNode (isHashmap parsed) (isArraylist parsed) parsed)

end Json
