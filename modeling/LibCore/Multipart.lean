import LibCore.HashMapRefine
import LibCore.Search

/-!
# Multipart Bodies

`process_multipart` of `multipart_writer.c` writes fields and files as parts between boundaries;
`Multipart_parse` of `multipart_parser.c` takes a body apart again. The first boundary is searched for as
it is, and all further ones with the line end before them.

The transport takes every byte it is given, and allocations succeed. A text that does not fit the buffer
of the writer is cut off there and sent with the length it would have had, so that bytes behind the
buffer are sent with it: these are a parameter. A missing map is an empty one.

## Main definitions

* `processMultipart`: the bytes the writer sends.
* `extractParam`, `extractContentType`, `processPart`, `parse`: the parser.
-/

open CString Search

namespace Multipart

/-- `HttpMultipartFile`. A file without data in memory is read from the disk. -/
structure MultipartFile where
  filename : Bytes
  contentType : Option Bytes
  data : Option Bytes
deriving DecidableEq

/-- `new_HttpMultipartFile`. -/
def newHttpMultipartFile (filename contentType data : Bytes) : MultipartFile where
  filename := filename
  contentType := some contentType
  data := if data = [] then none else some data

/-! ### Texts -/

/-- The line end. -/
def crlf : Bytes := [0x0D, 0x0A]

/-- The quote. -/
abbrev quote : UInt8 := 0x22

/-- `Content-Disposition` and the beginning of its value. -/
def dispositionText : Bytes :=
  ascii ['C', 'o', 'n', 't', 'e', 'n', 't', '-', 'D', 'i', 's', 'p', 'o', 's', 'i', 't', 'i', 'o', 'n'] ++
    ascii [':', ' ', 'f', 'o', 'r', 'm', '-', 'd', 'a', 't', 'a', ';', ' ']

def nameText : Bytes := ascii ['n', 'a', 'm', 'e']

def filenameText : Bytes := ascii ['f', 'i', 'l', 'e', 'n', 'a', 'm', 'e']

def contentTypeText : Bytes := ascii ['C', 'o', 'n', 't', 'e', 'n', 't', '-', 'T', 'y', 'p', 'e']

def octetStream : Bytes :=
  ascii ['a', 'p', 'p', 'l', 'i', 'c', 'a', 't', 'i', 'o', 'n', '/', 'o', 'c', 't', 'e', 't', '-', 's',
    't', 'r', 'e', 'a', 'm']

/-- The bare delimiter. -/
def bareDelim (boundary : Bytes) : Bytes := 0x2D :: 0x2D :: boundary

/-- The delimiter with the line end before it. -/
def crlfDelim (boundary : Bytes) : Bytes := crlf ++ bareDelim boundary

/-! ### The writer -/

/-- What is sent of a text that is formatted into the buffer of 2048 bytes, with `stack` behind it. -/
def inBuffer (stack : ℕ → UInt8) (text : Bytes) : Bytes :=
  if text.length < 2048 then text
  else text.take 2047 ++ 0 :: (List.range (text.length - 2048)).map stack

/-- `multipart_filename_escape`. -/
def multipartFilenameEscape (s : Bytes) : Bytes :=
  s.flatMap fun c => if c ∈ [quote, 0x5C, 0x0D, 0x0A] then [0x5C, c] else [c]

/-- `infer_mime_type`. -/
def inferMimeType (filename : Bytes) : Bytes :=
  if filename.contains 0x2E then
    let ext := (filename.reverse.takeWhile (· ≠ 0x2E)).reverse.map tolower
    if ext = ascii ['j', 's', 'o', 'n'] then
      ascii ['a', 'p', 'p', 'l', 'i', 'c', 'a', 't', 'i', 'o', 'n', '/', 'j', 's', 'o', 'n']
    else if ext = ascii ['p', 'n', 'g'] then ascii ['i', 'm', 'a', 'g', 'e', '/', 'p', 'n', 'g']
    else if ext = ascii ['j', 'p', 'g'] ∨ ext = ascii ['j', 'p', 'e', 'g'] then
      ascii ['i', 'm', 'a', 'g', 'e', '/', 'j', 'p', 'e', 'g']
    else if ext = ascii ['t', 'x', 't'] then ascii ['t', 'e', 'x', 't', '/', 'p', 'l', 'a', 'i', 'n']
    else octetStream
  else octetStream

/-- The header of a field. -/
def fieldHeader (key : Bytes) : Bytes := dispositionText ++ nameText ++ 0x3D :: quote :: (key ++ [quote])

/-- The header of a file. -/
def fileHeader (key filename mime : Bytes) : Bytes :=
  fieldHeader key ++ 0x3B :: 0x20 :: (filenameText ++ 0x3D :: quote :: (filename ++ quote ::
    (crlf ++ (contentTypeText ++ 0x3A :: 0x20 :: mime))))

/-- The text of a field, in front of the next boundary. -/
def fieldText (boundary key value : Bytes) : Bytes :=
  bareDelim boundary ++ crlf ++ fieldHeader key ++ crlf ++ crlf ++ value ++ crlf

/-- The text in front of the data of a file. -/
def fileText (boundary key filename mime : Bytes) : Bytes :=
  bareDelim boundary ++ crlf ++ fileHeader key filename mime ++ crlf ++ crlf

/-- The text behind the last part. -/
def closingText (boundary : Bytes) : Bytes := bareDelim boundary ++ [0x2D, 0x2D] ++ crlf

/-- The content type the writer sends for a file. -/
def mimeOf (file : MultipartFile) : Bytes :=
  file.contentType.getD (inferMimeType (multipartFilenameEscape file.filename))

/-- A round of the loop over the fields. -/
def sendField (stack : ℕ → UInt8) (boundary : Bytes) (data : HashMap Bytes) (key : Bytes) :
    Option Bytes :=
  (data.get key).elim (some []) fun value => some (inBuffer stack (fieldText boundary key value))

/-- A round of the loop over the files; `disk` gives the content of a file that can be read. -/
def sendFile (stack : ℕ → UInt8) (disk : Bytes → Option Bytes) (boundary : Bytes)
    (files : HashMap MultipartFile) (key : Bytes) : Option Bytes :=
  (files.get key).elim (some []) fun file =>
    (file.data.or (disk file.filename)).map fun data =>
      inBuffer stack (fileText boundary key (multipartFilenameEscape file.filename) (mimeOf file)) ++
        data ++ crlf

/-- The bytes of several sends, unless one fails. -/
def concatAll : List (Option Bytes) → Option Bytes
  | [] => some []
  | chunk :: chunks => chunk.bind fun s => (concatAll chunks).map (s ++ ·)

/-- `process_multipart` with `action_send`: the bytes that are sent. -/
def processMultipart (stack : ℕ → UInt8) (disk : Bytes → Option Bytes) (data : HashMap Bytes)
    (files : HashMap MultipartFile) (boundary : Bytes) : Option Bytes :=
  concatAll (data.keys.map (sendField stack boundary data) ++
    files.keys.map (sendFile stack disk boundary files) ++ [some (inBuffer stack (closingText boundary))])

/-! ### The parser -/

/-- `MultipartResult`. -/
structure MultipartResult where
  fields : HashMap Bytes
  files : HashMap MultipartFile

/-- `new_MultipartResult`. -/
def MultipartResult.new : MultipartResult where
  fields := HashMap.new 8
  files := HashMap.new 4

/-- What may stand before a parameter: nothing, a semicolon or a blank. -/
def startsParam : Option UInt8 → Bool
  | none => true
  | some c => c = 0x3B || c = 0x20 || c = 0x09

/-- `extract_param`, for a parameter in lower case. -/
def extractParam (headerBlock param : Bytes) : Option Bytes :=
  (behind tolower startsParam (param ++ [0x3D]) none headerBlock).bind fun p =>
    let value :=
      if p.head? = some quote then p.tail.takeWhile (· ≠ quote)
      else p.takeWhile fun c => c ∉ [0x3B, 0x0D, 0x0A, 0x20]
    if value = [] then none else some value

/-- `extract_content_type`. -/
def extractContentType (headerBlock : Bytes) : Option Bytes :=
  (behind tolower (fun _ => true) (contentTypeText.map tolower ++ [0x3A]) none headerBlock).bind fun p =>
    let ct := (p.dropWhile fun c => c = 0x20 || c = 0x09).takeWhile fun c => c ≠ 0x0D && c ≠ 0x0A
    if ct = [] then none else some ct

/-- `process_part`. The header block is a C string, and so is the value of a field. -/
def processPart (mp : MultipartResult) (part : Bytes) : MultipartResult :=
  (memmem (crlf ++ crlf) part).elim mp fun sep =>
    let header := cstr (part.take sep)
    let body := part.drop (sep + 4)
    (extractParam header nameText).elim mp fun name =>
      (extractParam header filenameText).elim { mp with fields := mp.fields.put name (cstr body) }
        fun filename =>
          let mime := (extractContentType header).getD octetStream
          { mp with files := mp.files.put name (newHttpMultipartFile filename mime body) }

/-- The text behind the line end of a delimiter. -/
def skipLineEnd (after : Bytes) : Bytes :=
  if crlf <+: after then after.drop 2 else if after.head? = some 0x0A then after.drop 1 else after

theorem length_skipLineEnd (after : Bytes) : (skipLineEnd after).length ≤ after.length := by
  rw [skipLineEnd]
  split_ifs <;> simp

/-- The delimiter a round of the loop looks for. -/
def delimOf (boundary : Bytes) (first : Bool) : Bytes :=
  if first then bareDelim boundary else crlfDelim boundary

theorem length_delimOf_pos (boundary : Bytes) (first : Bool) : 0 < (delimOf boundary first).length := by
  cases first <;> simp [delimOf, bareDelim, crlfDelim]

/-- The loop of `Multipart_parse` at `cur`. -/
def parseLoop (boundary : Bytes) (first : Bool) (mp : MultipartResult) (cur : Bytes) : MultipartResult :=
  if cur = [] then mp
  else
    match memmem (delimOf boundary first) cur with
    | none => mp
    | some hit =>
        let after := cur.drop (hit + (delimOf boundary first).length)
        if [0x2D, 0x2D] <+: after then mp
        else
          let after := skipLineEnd after
          match memmem (crlfDelim boundary) after with
          | none => mp
          | some next =>
              parseLoop boundary false (if next > 0 then processPart mp (after.take next) else mp)
                (after.drop next)
termination_by cur.length
decreasing_by
  have hle := length_skipLineEnd (cur.drop (hit + (delimOf boundary first).length))
  have hpos : 0 < cur.length := List.length_pos_iff.mpr (by assumption)
  have hdelim := length_delimOf_pos boundary first
  simp only [List.length_drop] at hle ⊢
  omega

/-- `Multipart_parse`. -/
def parse (body boundary : Bytes) : Option MultipartResult :=
  if body = [] ∨ boundary = [] then none else some (parseLoop boundary true .new body)

end Multipart
