import LibCore.Utf8

/-!
# The Path Validator

This module embeds `path_validator.c`. `PathValidator_validate` percent-decodes, checks
and normalises a request path in one loop that edits its output by looking backwards: at
a slash it inspects the last bytes written, drops a `.` segment, refuses `..`, and writes
no slash after a slash. The last segment is handled once more after the loop.

The output buffer is the list of the bytes written so far, so `out_canonical[out_idx - 1]`
is its last element and `out_idx--` drops it.

## Main definitions

* `rule02CheckUtf8`: the UTF-8 check, byte for byte as the source makes it.
* `PathState.step`, `validateLoop`, `validate`: the loop body, the loop and the function.
-/

open CString

namespace PathValidator

/-- `MAX_PATH_LEN`. -/
def maxPathLen : ℕ := 2048

/-- `MAX_SEGMENT_LEN`. -/
def maxSegmentLen : ℕ := 255

/-- `MAX_SEGMENTS`. -/
def maxSegments : ℕ := 100

/-- `'/'`. -/
abbrev slash : UInt8 := 0x2F

/-- `'.'`. -/
abbrev dot : UInt8 := 0x2E

/-! ### The UTF-8 rule -/

/-- `rule_02_check_utf8`. A read past the end meets the terminating NUL, which is no
continuation byte. -/
def rule02CheckUtf8 : Bytes → Bool
  | [] => true
  | a :: s =>
      if a < 0x80 then rule02CheckUtf8 s
      else if a &&& 0xE0 = 0xC0 then
        match s with
        | b :: s =>
            if a < 0xC2 || !Utf8.isCont b then false
            else rule02CheckUtf8 s
        | _ => false
      else if a &&& 0xF0 = 0xE0 then
        match s with
        | b :: c :: s =>
            if !Utf8.isCont b || !Utf8.isCont c then false
            else if a = 0xE0 && b < 0xA0 then false
            else if a = 0xED && b ≥ 0xA0 then false
            else rule02CheckUtf8 s
        | _ => false
      else if a &&& 0xF8 = 0xF0 then
        match s with
        | b :: c :: d :: s =>
            if !Utf8.isCont b || !Utf8.isCont c || !Utf8.isCont d then false
            else if a = 0xF0 && b < 0x90 then false
            else if a = 0xF4 && b ≥ 0x90 then false
            else rule02CheckUtf8 s
        | _ => false
      else false

/-! ### The loop -/

/-- The loop's variables: the bytes written, `seg_count` and `seg_len`. -/
structure PathState where
  out : Bytes
  segCount : ℕ
  segLen : ℕ
  deriving DecidableEq

/-- The evaluation of a finished segment, the same inside the loop and after it: a `.` is
taken back, `..` is refused, any other non-empty segment is counted. -/
def PathState.closeSegment (st : PathState) : Option PathState :=
  if st.segLen = 1 ∧ st.out.getLast? = some dot then
    some { st with out := st.out.dropLast }
  else if st.segLen = 2 ∧ st.out.dropLast.getLast? = some dot ∧ st.out.getLast? = some dot then
    none
  else if st.segLen > 0 then
    if st.segCount + 1 > maxSegments then none
    else some { st with segCount := st.segCount + 1 }
  else some st

/-- The letters and digits of the whitelist. -/
def isAlnum (c : UInt8) : Bool :=
  (0x41 ≤ c && c ≤ 0x5A) || (0x61 ≤ c && c ≤ 0x7A) || (0x30 ≤ c && c ≤ 0x39)

/-- The punctuation of the whitelist: `-`, `_`, `.`, `~` and `/`. -/
def isSafePunct (c : UInt8) : Bool :=
  c = 0x2D || c = 0x5F || c = dot || c = 0x7E || c = slash

/-- The byte checks of one loop pass. -/
def byteAllowed (c : UInt8) (wasEncoded : Bool) : Bool :=
  if c = 0 || c = 0x5C || c < 32 || c = 127 then false
  else if c = 0x3F || c = 0x23 || c = 0x26 || c = 0x3D then false
  else if wasEncoded && c = slash then false
  else if !isAlnum c && !isSafePunct c && c < 0x80 then false
  else true

/-- One loop pass after decoding. -/
def PathState.step (outSize : ℕ) (st : PathState) (c : UInt8) (wasEncoded : Bool) :
    Option PathState :=
  if !byteAllowed c wasEncoded then none
  else if c = slash then
    match st.closeSegment with
    | none => none
    | some st =>
        -- no second slash after a slash
        if st.out.getLast? = some slash then some { st with segLen := 0 }
        else if st.out.length ≥ outSize - 1 then none
        else some { st with out := st.out ++ [slash], segLen := 0 }
  else if st.segLen + 1 > maxSegmentLen then none
  else if st.out.length ≥ outSize - 1 then none
  else some { st with out := st.out ++ [c], segLen := st.segLen + 1 }

/-- The loop: decode one byte, then take one step. -/
def validateLoop (outSize : ℕ) : Bytes → PathState → Option PathState
  | [], st => some st
  | c :: rest, st =>
      if c = 0x25 then
        match rest with
        | h :: l :: rest =>
            if !isxdigit h || !isxdigit l then none
            else
              match st.step outSize (hexDigit h * 16 + hexDigit l) true with
              | none => none
              | some st => validateLoop outSize rest st
        | _ => none
      else
        match st.step outSize c false with
        | none => none
        | some st => validateLoop outSize rest st

/-- What happens after the loop: the last segment, the trailing slash, the root. -/
def PathState.finish (st : PathState) (outSize : ℕ) : Option Bytes :=
  match st.closeSegment with
  | none => none
  | some st =>
      let out := if st.out.length > 1 ∧ st.out.getLast? = some slash then st.out.dropLast
        else st.out
      if out = [] then if outSize < 2 then none else some [slash] else some out

/-- `PathValidator_validate`: the canonical path when the source returns true. -/
def validate (outSize : ℕ) (raw : Bytes) : Option Bytes :=
  if outSize = 0 then none
  else if raw.length = 0 ∨ raw.length > maxPathLen then none
  else if raw.head? ≠ some slash then none
  else
    match validateLoop outSize raw ⟨[], 0, 0⟩ with
    | none => none
    | some st =>
        match st.finish outSize with
        | none => none
        | some out => if rule02CheckUtf8 out then some out else none

end PathValidator
