import LibCore.Radix

/-!
# ASN.1 Encoding Rules

The decoders and encoders of `asn1.c`. A decoder gets the bytes between `ptr` and `end` and
returns its value and the bytes behind it, or `none` for `NULL`. An encoder gets the room
between `*p` and `end` and returns the bytes it appends, or `none` for `false`; what a failed
encoder left in the buffer is never used. Lengths are `size_t`, so at most `sizeMax`.

## Main definitions

* `decodeLength`, `decodeInteger`, `decodeUnsigned`, `decodeUnsigned64`, `decodeIp`,
  `decodeString`, `decodeOid`: the decoders.
* `encodeLength`, `encodeInteger`, `encodeUnsigned`, `encodeString`, `encodeOid`: the
  encoders.
-/

open CString Radix

namespace Asn1

/-- `SIZE_MAX`, also `UINT64_MAX` and `ULONG_MAX`. -/
def sizeMax : ℕ := 2 ^ 64 - 1

/-- `UINT32_MAX`. -/
def uint32Max : ℕ := 2 ^ 32 - 1

/-- The values of an `int32_t`. -/
def IsInt32 (v : ℤ) : Prop := -2 ^ 31 ≤ v ∧ v < 2 ^ 31

instance : DecidablePred IsInt32 := fun _ => inferInstanceAs (Decidable (_ ∧ _))

/-! ### Tags -/

/-- `ASN1_INTEGER`. -/
abbrev tagInteger : UInt8 := 0x02

/-- `ASN1_OCTET_STRING`. -/
abbrev tagOctetString : UInt8 := 0x04

/-- `ASN1_NULL`. -/
abbrev tagNull : UInt8 := 0x05

/-- `ASN1_OBJECT_ID`. -/
abbrev tagObjectId : UInt8 := 0x06

/-- `ASN1_SEQUENCE`. -/
abbrev tagSequence : UInt8 := 0x30

/-- `ASN1_IPADDRESS`. -/
abbrev tagIpAddress : UInt8 := 0x40

/-- `ASN1_COUNTER32`. -/
abbrev tagCounter32 : UInt8 := 0x41

/-- `ASN1_GAUGE32`. -/
abbrev tagGauge32 : UInt8 := 0x42

/-- `ASN1_TIMETICKS`. -/
abbrev tagTimeTicks : UInt8 := 0x43

/-- `ASN1_COUNTER64`. -/
abbrev tagCounter64 : UInt8 := 0x46

/-! ### Decoders -/

/-- The loop over the octets of a long length. -/
def lengthLoop : ℕ → ℕ → Bytes → Option (ℕ × Bytes)
  | 0, len, ptr => some (len, ptr)
  | _ + 1, _, [] => none
  | num + 1, len, b :: ptr =>
      if len > sizeMax / 256 then none else lengthLoop num (len * 256 + b.toNat) ptr

/-- `asn1_decode_length`. -/
def decodeLength : Bytes → Option (ℕ × Bytes)
  | [] => none
  | b :: ptr =>
      if b < 128 then some (b.toNat, ptr)
      else if b = 0x80 then none
      else
        let num := (b &&& 0x7F).toNat
        if num = 0 ∨ num > 8 ∨ ptr.length < num then none
        else if num > 1 ∧ ptr.head? = some 0 then none
        else
          match lengthLoop num 0 ptr with
          | none => none
          | some (len, ptr) => if len < 128 then none else some (len, ptr)

/-- A tag the decoder takes, a length it takes, and that many bytes: the tag, the content and
what follows. Every decoder below starts like this. -/
def decodeTlv (isTag : UInt8 → Bool) (isLen : ℕ → Bool) : Bytes → Option (Bytes × Bytes)
  | [] => none
  | t :: ptr =>
      if !isTag t then none
      else
        match decodeLength ptr with
        | none => none
        | some (len, ptr) =>
            if !isLen len ∨ ptr.length < len then none
            else some (ptr.take len, ptr.drop len)

/-- The loop `v = v * 256 + ptr[i]`. -/
def signedLoop (v : ℤ) (content : Bytes) : ℤ :=
  content.foldl (fun v b => v * 256 + b.toNat) v

/-- Whether the first octet of an integer is superfluous. -/
def paddedInteger : Bytes → Bool
  | a :: b :: _ => (a = 0x00 && b &&& 0x80 = 0) || (a = 0xFF && b &&& 0x80 ≠ 0)
  | _ => false

/-- `asn1_decode_integer`. -/
def decodeInteger (ptr : Bytes) : Option (ℤ × Bytes) :=
  match decodeTlv (· = tagInteger) (fun len => len ≠ 0 && len ≤ 4) ptr with
  | none => none
  | some (content, rest) =>
      if paddedInteger content then none
      else
        let v := signedLoop (if content.head?.any fun b => b &&& 0x80 ≠ 0 then -1 else 0) content
        if IsInt32 v then some (v, rest) else none

/-- The loop `v = (v << 8) | *ptr++`, in a type of `2 ^ bits` values. -/
def unsignedLoop (bits : ℕ) (content : Bytes) : ℕ :=
  content.foldl (fun v b => (v * 256 + b.toNat) % 2 ^ bits) 0

/-- The content of an unsigned number of at most `width` octets, one more for a leading zero
in front of a set bit. -/
def unsignedContent (width : ℕ) (content : Bytes) : Option Bytes :=
  if content.length > 1 ∧ content.head? = some 0 then
    if (content.drop 1).head?.any fun b => b &&& 0x80 = 0 then none else some (content.drop 1)
  else if content.length = width + 1 then none
  else some content

/-- `asn1_decode_unsigned`. -/
def decodeUnsigned (ptr : Bytes) : Option (ℕ × Bytes) :=
  match decodeTlv (fun t => t = tagCounter32 || t = tagGauge32 || t = tagTimeTicks)
      (fun len => len ≠ 0 && len ≤ 5) ptr with
  | none => none
  | some (content, rest) =>
      (unsignedContent 4 content).map fun octets => (unsignedLoop 32 octets, rest)

/-- `asn1_decode_unsigned64`. -/
def decodeUnsigned64 (ptr : Bytes) : Option (ℕ × Bytes) :=
  match decodeTlv (· = tagCounter64) (fun len => len ≠ 0 && len ≤ 9) ptr with
  | none => none
  | some (content, rest) =>
      (unsignedContent 8 content).map fun octets => (unsignedLoop 64 octets, rest)

/-- Put a dot between texts. -/
def dotted (ss : List Bytes) : Bytes := [0x2E].intercalate ss

/-- `asn1_decode_ip`, into a buffer that has room for every address. -/
def decodeIp (ptr : Bytes) : Option (Bytes × Bytes) :=
  match decodeTlv (· = tagIpAddress) (· = 4) ptr with
  | none => none
  | some (content, rest) => some (dotted (content.map fun b => decimal b.toNat), rest)

/-- `asn1_decode_string` into a buffer of `maxLen` bytes: what is copied in front of the
terminating NUL. -/
def decodeString (maxLen : ℕ) (ptr : Bytes) : Option (Bytes × Bytes) :=
  if maxLen = 0 then none
  else
    match decodeTlv (· = tagOctetString) (fun _ => true) ptr with
    | none => none
    | some (content, rest) => some (content.take (maxLen - 1), rest)

/-- The first loop of `asn1_decode_oid`: the merged first two arcs, and the octets behind
them. -/
def firstArc : ℕ → Bytes → Option (ℕ × Bytes)
  | _, [] => none
  | v, b :: s =>
      if v > sizeMax / 128 then none
      else if b &&& 0x80 = 0 then some (v * 128 + (b &&& 0x7F).toNat, s)
      else firstArc (v * 128 + (b &&& 0x7F).toNat) s

/-- The first two arcs, from their merged value. -/
def splitFirst (v : ℕ) : Option (ℕ × ℕ) :=
  if v < 40 then some (0, v)
  else if v < 80 then some (1, v - 40)
  else if v - 80 > uint32Max then none
  else some (2, v - 80)

/-- The second loop of `asn1_decode_oid`, with room for `room` more arcs, the value and the
number of octets of the arc in progress. -/
def arcLoop : ℕ → ℕ → ℕ → Bytes → Option (List ℕ)
  | _, _, oidBytes, [] => if oidBytes = 0 then some [] else none
  | 0, _, _, _ :: _ => none
  | room + 1, v, oidBytes, b :: s =>
      if oidBytes + 1 > 5 then none
      else if v > uint32Max / 128 then none
      else
        let v := v * 128 + (b &&& 0x7F).toNat
        if b &&& 0x80 = 0 then (arcLoop room 0 0 s).map (v :: ·)
        else arcLoop (room + 1) v (oidBytes + 1) s

/-- The arcs in the content of an object identifier. -/
def contentArcs (oidCap : ℕ) (content : Bytes) : Option (List ℕ) :=
  match firstArc 0 content with
  | none => none
  | some (v, s) =>
      match splitFirst v with
      | none => none
      | some (x, y) => (arcLoop (oidCap - 2) 0 0 s).map fun arcs => x :: y :: arcs

/-- `asn1_decode_oid`. -/
def decodeOid (oidCap : ℕ) (ptr : Bytes) : Option (List ℕ × Bytes) :=
  if oidCap < 2 then none
  else
    match decodeTlv (· = tagObjectId) (· ≠ 0) ptr with
    | none => none
    | some (content, rest) => (contentArcs oidCap content).map fun arcs => (arcs, rest)

/-! ### Encoders -/

/-- The octets of a number, leading octet first, for at most `width` octets. -/
def octets (width n : ℕ) : Bytes := (digitLoop 256 width n).reverse.map UInt8.ofNat

/-- `asn1_encode_length`. -/
def encodeLength (room length : ℕ) : Option Bytes :=
  if length < 128 then if room < 1 then none else some [UInt8.ofNat length]
  else
    let lenBytes := octets 8 length
    if room < 1 + lenBytes.length then none
    else some ((0x80 ||| UInt8.ofNat lenBytes.length) :: lenBytes)

/-- The octet of a two's complement number that starts at bit `8 * i`. -/
def signedOctet (value : ℤ) (i : ℕ) : UInt8 := UInt8.ofNat (value / 256 ^ i % 256).toNat

/-- The loop that skips the superfluous leading octets of a signed number. -/
def trimSigned : Bytes → Bytes
  | a :: b :: s => if paddedInteger (a :: b :: s) then trimSigned (b :: s) else a :: b :: s
  | s => s

/-- The loop that skips the superfluous leading octets of an unsigned number. -/
def trimUnsigned : Bytes → Bytes
  | a :: b :: s => if a = 0x00 && b &&& 0x80 = 0 then trimUnsigned (b :: s) else a :: b :: s
  | s => s

/-- A tag, a size of one octet and the content. -/
def encodeShort (room : ℕ) (tag : UInt8) (content : Bytes) : Option Bytes :=
  if room < 1 then none
  else if room - 1 < 1 + content.length then none
  else some (tag :: UInt8.ofNat content.length :: content)

/-- `asn1_encode_integer`. -/
def encodeInteger (room : ℕ) (value : ℤ) : Option Bytes :=
  encodeShort room tagInteger (trimSigned [signedOctet value 3, signedOctet value 2,
    signedOctet value 1, signedOctet value 0])

/-- `asn1_encode_unsigned`. -/
def encodeUnsigned (room value : ℕ) (tag : UInt8) : Option Bytes :=
  encodeShort room tag (trimUnsigned [0x00, UInt8.ofNat (value / 256 ^ 3),
    UInt8.ofNat (value / 256 ^ 2), UInt8.ofNat (value / 256), UInt8.ofNat value])

/-- A tag, a length and the content. -/
def encodeTlv (room : ℕ) (tag : UInt8) (content : Bytes) : Option Bytes :=
  if room < 1 then none
  else
    match encodeLength (room - 1) content.length with
    | none => none
    | some len =>
        if room - 1 - len.length < content.length then none else some (tag :: (len ++ content))

/-- `asn1_encode_string`, on the `len` bytes at `str`. -/
def encodeString (room : ℕ) (str : Bytes) : Option Bytes := encodeTlv room tagOctetString str

/-- `strtoul` in base 10: the value, whether it sets `ERANGE`, and where it stops. -/
def strtoul (s : Bytes) : ℕ × Bool × Bytes :=
  let blank := s.dropWhile isspace
  let start := if blank.head?.any fun c => c = 0x2B || c = 0x2D then blank.drop 1 else blank
  let digits := start.takeWhile isdigit
  let rest := start.dropWhile isdigit
  let v := decimalValue digits
  if digits = [] then (0, false, s)
  else if v > sizeMax then (sizeMax, true, rest)
  else if blank.head? = some 0x2D then ((sizeMax + 1 - v) % (sizeMax + 1), false, rest)
  else (v, false, rest)

/-- The loop of `asn1_encode_oid` over a C string, with room for `room` more arcs. -/
def oidLoop : ℕ → Bytes → Option (List ℕ)
  | _, [] => some []
  | 0, _ :: _ => none
  | room + 1, c :: s =>
      if !isdigit c then none
      else
        match strtoul (c :: s) with
        | (v, erange, rest) =>
            if erange ∨ v > uint32Max then none
            else
              match rest with
              | [] => some [v]
              | d :: s =>
                  if d ≠ 0x2E then none
                  else if s = [] then none
                  else (oidLoop room s).map (v :: ·)

/-- An arc in groups of seven bits, all but the last with the top bit set; `size` octets are
enough. -/
def encodeArc (size v : ℕ) : Bytes :=
  if v < 128 then [UInt8.ofNat v]
  else
    (digitLoop 128 (size - 1) (v / 128)).reverse.map (fun d => UInt8.ofNat d ||| 0x80) ++
      [UInt8.ofNat (v % 128)]

/-- The loop over the arcs behind the first two, with the octets written to `temp` so far. -/
def encodeArcs : Bytes → List ℕ → Option Bytes
  | temp, [] => some temp
  | temp, v :: arcs =>
      if 512 - temp.length < 5 then none else encodeArcs (temp ++ encodeArc 5 v) arcs

/-- `asn1_encode_oid`. -/
def encodeOid (room : ℕ) (oidStr : Bytes) : Option Bytes :=
  match oidLoop 128 oidStr with
  | none => none
  | some (x :: y :: arcs) =>
      if x > 2 then none
      else if x < 2 ∧ y ≥ 40 then none
      else
        match encodeArcs (encodeArc 10 (x * 40 + y)) arcs with
        | none => none
        | some temp => encodeTlv room tagObjectId temp
  | some _ => none

end Asn1
