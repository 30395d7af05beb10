import LibCore.Asn1

/-!
# SNMP Messages

`snmp_asn_decode_response` and `snmp_asn_encode_pdu` of `snmp_asn.c`. The decoder walks four
nested levels (message, protocol data unit, list of variable bindings, binding), each given
by its end; here a level is the list of its bytes, and a pointer into it the list of the bytes
from there to its end. Bindings are collected in a temporary list that is appended to the
caller's only when everything has been read. Allocation succeeds.

## Main definitions

* `VarBind`, `newSnmpVarBind`: variable bindings with their two capacities.
* `decodeValue`, `decodeVarbind`, `varbindLoop`, `snmpAsnDecodeResponse`: the decoder.
* `snmpAsnEncodePdu`: the encoder, from the inside out.
-/

open CString Radix Asn1

namespace Snmp

/-- `SNMP_OID_STR_CAP`. -/
def oidStrCap : ℕ := 256

/-- `SNMP_VALUE_STR_CAP`. -/
def valueStrCap : ℕ := 512

/-- `SnmpVarBind`. -/
structure VarBind where
  tag : UInt8
  valueLen : ℕ
  oid : Bytes
  valueStr : Bytes
deriving DecidableEq

/-- `new_SnmpVarBind`, on two C strings. -/
def newSnmpVarBind (tag : UInt8) (oid value : Bytes) : Option VarBind :=
  if oid.length ≥ oidStrCap ∨ value.length ≥ valueStrCap then none
  else some ⟨tag, value.length, oid, value⟩

/-! ### Texts -/

/-- `%d`. -/
def signedDecimal (v : ℤ) : Bytes :=
  if v < 0 then 0x2D :: decimal v.natAbs else decimal v.natAbs

/-- `%02u`, for a number below 100. -/
def twoDigits (n : ℕ) : Bytes := if n < 10 then 0x30 :: decimal n else decimal n

/-- A hexadecimal digit in upper case. -/
def upperHex (d : ℕ) : UInt8 := if d < 10 then UInt8.ofNat (0x30 + d) else UInt8.ofNat (0x37 + d)

/-- `%02X`. -/
def hexByte (b : UInt8) : Bytes := [upperHex (b.toNat / 16), upperHex (b.toNat % 16)]

/-- The loop that prints arcs into a buffer of `cap` bytes, behind what is there. -/
def printArcs (cap : ℕ) : Bytes → List ℕ → Option Bytes
  | out, [] => some out
  | out, v :: arcs =>
      let piece := if out = [] then decimal v else 0x2E :: decimal v
      if piece.length ≥ cap - out.length then none else printArcs cap (out ++ piece) arcs

/-- The loop that prints octets in hexadecimal into a buffer of `cap` bytes. -/
def printHex (cap : ℕ) : Bytes → Bytes → Option Bytes
  | out, [] => some out
  | out, b :: s =>
      let piece := if s = [] then hexByte b else hexByte b ++ [0x3A]
      if piece.length ≥ cap - out.length then none else printHex cap (out ++ piece) s

/-- `is_printable_string`. -/
def isPrintableString (data : Bytes) : Bool :=
  data ≠ [] && data.all fun c =>
    !(c < 32 || c > 126) || (c = 0x0D || c = 0x0A || c = 0x09)

/-- The text of a number of hundredths of a second. -/
def timeTicksText (v : ℕ) : Bytes :=
  let sec := v / 100
  decimal (sec / 86400) ++ ascii [' ', 'd', 'a', 'y', 's', ' '] ++
    twoDigits (sec % 86400 / 3600) ++ 0x3A :: twoDigits (sec % 3600 / 60) ++
    0x3A :: twoDigits (sec % 60)

/-- The text of a null. -/
def nullText : Bytes := ascii ['N', 'U', 'L', 'L']

/-- The text of an exception. -/
def exceptionText (tag : UInt8) : Bytes :=
  ascii ['E', 'x', 'c', 'e', 'p', 't', 'i', 'o', 'n', '/', 'E', 'n', 'd', '('] ++ hexByte tag ++
    ascii [')']

/-! ### The decoder -/

/-- The content of an element that ends where its parent ends. -/
def decodeLast (tag : UInt8) (p : Bytes) : Option Bytes :=
  match decodeTlv (· = tag) (fun _ => true) p with
  | some (content, []) => some content
  | _ => none

/-- A decoded number that ends where the binding ends. -/
def decodeEnd {α : Type} (text : α → Bytes) : Option (α × Bytes) → Option Bytes
  | some (v, []) => some (text v)
  | _ => none

/-- The text of the value of a binding, which starts at `p` and fills the rest of the
binding. -/
def decodeValue (p : Bytes) : Option Bytes :=
  match p with
  | [] => none
  | tag :: s =>
      if tag = tagInteger then decodeEnd signedDecimal (decodeInteger p)
      else if tag = tagCounter32 ∨ tag = tagGauge32 ∨ tag = tagTimeTicks then
        decodeEnd (if tag = tagTimeTicks then timeTicksText else decimal) (decodeUnsigned p)
      else if tag = tagCounter64 then decodeEnd decimal (decodeUnsigned64 p)
      else if tag = tagIpAddress then decodeEnd id (decodeIp p)
      else if tag = tagOctetString ∨ tag = 0x44 then
        match decodeLength s with
        | none => none
        | some (len, content) =>
            if content.length ≠ len then none
            else if isPrintableString content then
              if len ≥ valueStrCap then none else some content
            else printHex valueStrCap [] content
      else if tag = tagObjectId then
        match decodeOid 128 p with
        | some (arcs, []) => printArcs valueStrCap [] arcs
        | _ => none
      else if tag = tagNull ∨ tag = 0x80 ∨ tag = 0x81 ∨ tag = 0x82 then
        match decodeLength s with
        | some (0, []) => some (if tag = tagNull then nullText else exceptionText tag)
        | _ => none
      else none

/-- A binding, from the content of its sequence: an object identifier and a value. -/
def decodeVarbind (vb : Bytes) : Option VarBind :=
  match decodeOid 128 vb with
  | none => none
  | some (arcs, p) =>
      match printArcs oidStrCap [] arcs with
      | none => none
      | some oidStr =>
          match p with
          | [] => none
          | tag :: _ =>
              match decodeValue p with
              | none => none
              | some val => newSnmpVarBind tag oidStr val

/-- The loop over the list of bindings, for at most `fuel` rounds, with the bindings read so
far. -/
def varbindLoop : ℕ → List VarBind → Bytes → Option (List VarBind)
  | _, temp, [] => some temp
  | 0, _, _ :: _ => none
  | fuel + 1, temp, b :: p =>
      match decodeTlv (· = tagSequence) (fun _ => true) (b :: p) with
      | none => none
      | some (vb, rest) =>
          match decodeVarbind vb with
          | none => none
          | some v => varbindLoop fuel (temp ++ [v]) rest

/-- The bindings of a protocol data unit: request number, error status and index, then the
list. -/
def decodePdu (pdu : Bytes) : Option (List VarBind) :=
  match decodeInteger pdu with
  | none => none
  | some (_requestId, p) =>
      match decodeInteger p with
      | none => none
      | some (errStatus, p) =>
          match decodeInteger p with
          | none => none
          | some (_errIndex, p) =>
              if errStatus ≠ 0 then none
              else
                match decodeLast tagSequence p with
                | none => none
                | some vbl => varbindLoop vbl.length [] vbl

/-- The bindings of a message: version, community, then the protocol data unit. -/
def decodeMessage (buf : Bytes) : Option (List VarBind) :=
  match decodeLast tagSequence buf with
  | none => none
  | some msg =>
      match decodeInteger msg with
      | none => none
      | some (_version, p) =>
          match decodeTlv (· = tagOctetString) (fun _ => true) p with
          | none => none
          | some (_community, p) =>
              match decodeLast 0xA2 p with
              | none => none
              | some pdu => decodePdu pdu

/-- `snmp_asn_decode_response`: what it returns, and `out_varbinds` afterwards. -/
def snmpAsnDecodeResponse (buf : Bytes) (outVarbinds : List VarBind) : Bool × List VarBind :=
  if buf.length < 10 then (false, outVarbinds)
  else
    match decodeMessage buf with
    | none => (false, outVarbinds)
    | some temp => (true, outVarbinds ++ temp)

/-! ### The encoder -/

/-- What is written to a buffer of `size` bytes by encoders one after the other. -/
def encodeAll (size : ℕ) (encoders : List (ℕ → Option Bytes)) : Option Bytes :=
  encoders.foldlM (fun out encode => (encode (size - out.length)).map (out ++ ·)) []

/-- A `memcpy` of a finished buffer. -/
def copyAll (s : Bytes) (room : ℕ) : Option Bytes := if room < s.length then none else some s

/-- `snmp_asn_encode_pdu` into a buffer of `bufSz` bytes; `none` for 0. -/
def snmpAsnEncodePdu (bufSz : ℕ) (pduType : UInt8) (versionVal : ℤ) (secName oid : Bytes)
    (nonRepeaters maxRepetitions : ℤ) (setValue : Option Bytes) : Option Bytes :=
  if bufSz < 512 then none
  else
    let value : ℕ → Option Bytes :=
      match setValue with
      | some s => fun room => encodeString room s
      | none => copyAll [tagNull, 0x00]
    match encodeAll 1024 [fun room => encodeOid room oid, value] with
    | none => none
    | some oidVal =>
        match encodeAll 1024 [fun room => encodeTlv room tagSequence oidVal] with
        | none => none
        | some varbind =>
            match encodeAll 1536 [fun room => encodeTlv room tagSequence varbind] with
            | none => none
            | some varbindList =>
                match encodeAll 2048 [fun room => encodeInteger room 1001,
                    fun room => encodeInteger room nonRepeaters,
                    fun room => encodeInteger room maxRepetitions, copyAll varbindList] with
                | none => none
                | some pduPayload =>
                    match encodeAll 4096 [fun room => encodeInteger room versionVal,
                        fun room => encodeString room secName,
                        fun room => encodeTlv room pduType pduPayload] with
                    | none => none
                    | some msgPayload =>
                        encodeAll bufSz [fun room => encodeTlv room tagSequence msgPayload]

end Snmp
