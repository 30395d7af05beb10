import LibCore.SnmpDecode

/-!
# SNMP: Decoding Undoes Encoding

A message that `snmp_asn_encode_pdu` writes with the tag of a response and an error status of
zero is accepted by `snmp_asn_decode_response`, which yields its one binding. The encoder
builds the message from the inside out, the decoder takes it apart from the outside in; in
between stands the element of each level (`tlv`), whose length has one, two or three octets
independently of the others.

## Main results

* `dotted_dottedArcs`: a canonical dotted text is what its arcs print as.
* `snmpAsnEncodePdu_eq_some`: the elements of an encoded message.
* `decode_encodePdu`: the round trip.
-/

open CString Radix Asn1

namespace Snmp

/-! ### Canonical texts of object identifiers -/

/-- A dotted text whose components are decimal numbers without superfluous zeros. -/
def CanonicalOid (s : Bytes) : Prop :=
  ∃ comps : List Bytes, comps ≠ [] ∧ (∀ c ∈ comps, IsDecimal c) ∧ s = dotted comps

theorem dottedArcs_dotted {comps : List Bytes} (hne : comps ≠ [])
    (h : ∀ c ∈ comps, ∀ x ∈ c, isdigit x = true) :
    dottedArcs (dotted comps) = comps.map decimalValue := by
  rw [dottedArcs, dotted, List.splitOn_intercalate _ (fun c hc => dot_notMem (h c hc)) hne]

/-- A canonical text is **what its arcs print as**. -/
theorem dotted_dottedArcs {s : Bytes} (h : CanonicalOid s) :
    dotted ((dottedArcs s).map decimal) = s := by
  obtain ⟨comps, hne, hcomps, rfl⟩ := h
  rw [dottedArcs_dotted hne fun c hc => (hcomps c hc).2.1, List.map_map]
  congr 1
  conv_rhs => rw [← List.map_id comps]
  exact List.map_congr_left fun c hc => decimal_decimalValue (hcomps c hc)

/-! ### Elements that are decoded -/

theorem length_tlv (tag : UInt8) (content : Bytes) :
    content.length + 2 ≤ (tlv tag content).length := by
  have hne : 1 ≤ (lengthOctets content.length).length := by
    rw [lengthOctets]
    split_ifs <;> simp
  rw [tlv, List.length_cons, List.length_append]
  omega

theorem decodeTlv_tlv (tag : UInt8) {content : Bytes} (h : content.length ≤ sizeMax)
    (rest : Bytes) :
    decodeTlv (· = tag) (fun _ => true) (tlv tag content ++ rest) = some (content, rest) :=
  decodeTlv_iff.mpr ⟨tag, decide_eq_true rfl, rfl, h, rfl⟩

theorem decodeInteger_tlv {v : ℤ} (h : IsInt32 v) (rest : Bytes) :
    decodeInteger (tlv tagInteger (integerOctets v) ++ rest) = some (v, rest) :=
  decodeInteger_iff.mpr ⟨h, rfl⟩

/-- The characters of a text that is not shown in hexadecimal. -/
def IsPrintable (c : UInt8) : Prop := 32 ≤ c ∧ c ≤ 126 ∨ c = 0x0D ∨ c = 0x0A ∨ c = 0x09

instance : DecidablePred IsPrintable := fun _ => inferInstanceAs (Decidable (_ ∨ _))

theorem isPrintableString_iff {s : Bytes} :
    isPrintableString s = true ↔ s ≠ [] ∧ ∀ c ∈ s, IsPrintable c := by
  have hbyte : ∀ c : UInt8, (!(c < 32 || c > 126) || (c = 0x0D || c = 0x0A || c = 0x09)) = true ↔
      IsPrintable c := by
    grind [IsPrintable]
  simp only [isPrintableString, Bool.and_eq_true, List.all_eq_true, decide_eq_true_eq]
  exact and_congr_right fun _ => forall₂_congr fun c _ => hbyte c

/-- A text is its own value. The empty one is printed in hexadecimal, with the same result. -/
theorem decodeValue_string {s : Bytes} (hs : ∀ c ∈ s, IsPrintable c) (hlen : s.length < valueStrCap) :
    decodeValue (tlv tagOctetString s) = some s := by
  have hlength : decodeLength (lengthOctets s.length ++ s) = some (s.length, s) :=
    decodeLength_iff.mpr ⟨hlen.le.trans (by decide), rfl⟩
  rw [tlv, decodeValue, if_neg (by decide), if_neg (by decide), if_neg (by decide),
    if_neg (by decide), if_pos (by decide), hlength]
  simp only [ne_eq, not_true_eq_false, if_false]
  by_cases hempty : s = []
  · subst hempty
    rfl
  · rw [if_pos (isPrintableString_iff.mpr ⟨hempty, hs⟩), if_neg (not_le.mpr hlen)]

/-- The entry for a canonical object identifier and a value with its text. -/
theorem decodeVarbind_encode {oid e : Bytes} {room : ℕ} {tag : UInt8} {p val : Bytes}
    (hoid : CanonicalOid oid) (hlen : oid.length < oidStrCap) (he : encodeOid room oid = some e)
    (hval : decodeValue (tag :: p) = some val) (hcap : val.length < valueStrCap) :
    decodeVarbind (e ++ tag :: p) = some ⟨tag, val.length, oid, val⟩ := by
  have hprint : printArcs oidStrCap [] (dottedArcs oid) = some oid :=
    (printArcs_iff (by decide)).mpr ⟨(dotted_dottedArcs hoid).symm, hlen⟩
  rw [decodeVarbind, decodeOid_encodeOid he]
  simp only
  rw [hprint]
  simp only
  rw [hval]
  simp only
  rw [newSnmpVarBind, if_neg]
  omega

theorem varbindLoop_single {vb : Bytes} {v : VarBind} (hlen : vb.length ≤ sizeMax)
    (h : decodeVarbind vb = some v) :
    varbindLoop (tlv tagSequence vb).length [] (tlv tagSequence vb) = some [v] := by
  have hdecode := decodeTlv_tlv tagSequence hlen []
  rw [List.append_nil, tlv] at hdecode
  rw [tlv, List.length_cons, varbindLoop, hdecode]
  simp only
  rw [h]
  simp only [List.nil_append]
  cases (lengthOctets vb.length ++ vb).length <;> rfl

/-! ### The encoder -/

theorem encodeAll_cons {size : ℕ} {encode : ℕ → Option Bytes} {encoders : List (ℕ → Option Bytes)}
    {out e : Bytes} :
    (encode :: encoders).foldlM
        (fun out encode => (encode (size - out.length)).map (out ++ ·)) out = some e ↔
      ∃ a, encode (size - out.length) = some a ∧ encoders.foldlM
        (fun out encode => (encode (size - out.length)).map (out ++ ·)) (out ++ a) = some e := by
  rw [List.foldlM_cons, Option.bind_eq_bind, Option.bind_eq_some_iff]
  constructor
  · rintro ⟨b, hb, he⟩
    obtain ⟨a, ha, rfl⟩ := Option.map_eq_some_iff.mp hb
    exact ⟨a, ha, he⟩
  · rintro ⟨a, ha, he⟩
    exact ⟨out ++ a, by rw [ha, Option.map_some], he⟩

theorem encodeAll_nil {size : ℕ} {out e : Bytes} :
    ([] : List (ℕ → Option Bytes)).foldlM
        (fun out encode => (encode (size - out.length)).map (out ++ ·)) out = some e ↔ out = e := by
  rw [List.foldlM_nil, Option.pure_def, Option.some.injEq]

theorem encodeAll_single {size : ℕ} {encode : ℕ → Option Bytes} {e : Bytes} :
    encodeAll size [encode] = some e ↔ encode size = some e := by
  simp only [encodeAll, encodeAll_cons, encodeAll_nil, List.length_nil, Nat.sub_zero,
    List.nil_append, exists_eq_right]

theorem copyAll_eq_some_iff {s e : Bytes} {room : ℕ} :
    copyAll s room = some e ↔ e = s ∧ s.length ≤ room := by
  rw [copyAll]
  split_ifs with h
  · simp only [false_iff]
    omega
  · simp only [Option.some.injEq]
    constructor
    · rintro rfl
      exact ⟨rfl, by omega⟩
    · rintro ⟨rfl, -⟩
      rfl

/-- The element of the value of an encoded binding. -/
def encodedValue : Option Bytes → Bytes
  | some s => tlv tagOctetString s
  | none => [tagNull, 0x00]

theorem encodedValue_spec {setValue : Option Bytes} {room : ℕ} {v : Bytes}
    (h : (match setValue with
      | some s => fun room => encodeString room s
      | none => copyAll [tagNull, 0x00]) room = some v) :
    v = encodedValue setValue ∧ v.length ≤ room := by
  cases setValue with
  | none =>
      obtain ⟨rfl, hlen⟩ := copyAll_eq_some_iff.mp h
      exact ⟨rfl, hlen⟩
  | some s =>
      obtain ⟨rfl, hlen⟩ := encodeTlv_eq_some_iff.mp h
      exact ⟨rfl, hlen⟩

/-- The elements of an encoded message, and the sizes of the two inner buffers. -/
theorem snmpAsnEncodePdu_eq_some {bufSz : ℕ} {pduType : UInt8} {versionVal : ℤ}
    {secName oid : Bytes} {nonRepeaters maxRepetitions : ℤ} {setValue : Option Bytes} {e : Bytes}
    (h : snmpAsnEncodePdu bufSz pduType versionVal secName oid nonRepeaters maxRepetitions setValue =
      some e) :
    ∃ eoid, encodeOid 1024 oid = some eoid ∧
      (eoid ++ encodedValue setValue).length ≤ 1024 ∧
      (tlv tagSequence (eoid ++ encodedValue setValue)).length ≤ 1024 ∧
      ∃ pdu, pdu = tlv tagInteger (integerOctets 1001) ++
          tlv tagInteger (integerOctets nonRepeaters) ++
          tlv tagInteger (integerOctets maxRepetitions) ++
          tlv tagSequence (tlv tagSequence (eoid ++ encodedValue setValue)) ∧
        pdu.length ≤ 2048 ∧
        ∃ msg, msg = tlv tagInteger (integerOctets versionVal) ++ tlv tagOctetString secName ++
            tlv pduType pdu ∧
          msg.length ≤ 4096 ∧ e = tlv tagSequence msg := by
  simp only [snmpAsnEncodePdu] at h
  split_ifs at h
  split at h
  · cases h
  rename_i oidVal hoidVal
  split at h
  · cases h
  rename_i varbind hvarbind
  split at h
  · cases h
  rename_i varbindList hvarbindList
  split at h
  · cases h
  rename_i pduPayload hpdu
  split at h
  · cases h
  rename_i msgPayload hmsg
  -- the binding
  simp only [encodeAll, encodeAll_cons, encodeAll_nil, List.length_nil, Nat.sub_zero,
    List.nil_append] at hoidVal
  obtain ⟨eoid, heoid, v, hv, rfl⟩ := hoidVal
  have heoidLen : eoid.length ≤ 1024 := by
    obtain ⟨x, y, arcs, -, -, -, -, -, rfl, hlen⟩ := encodeOid_eq_some heoid
    exact hlen
  obtain ⟨rfl, hvLen⟩ := encodedValue_spec hv
  obtain ⟨rfl, hvarbindLen⟩ := encodeTlv_eq_some_iff.mp (encodeAll_single.mp hvarbind)
  obtain ⟨rfl, -⟩ := encodeTlv_eq_some_iff.mp (encodeAll_single.mp hvarbindList)
  -- the protocol data unit
  simp only [encodeAll, encodeAll_cons, encodeAll_nil, encodeInteger_eq_some_iff,
    copyAll_eq_some_iff] at hpdu
  obtain ⟨_, ⟨rfl, -⟩, _, ⟨rfl, -⟩, _, ⟨rfl, hints⟩, _, ⟨rfl, hlist⟩, rfl⟩ := hpdu
  -- the message
  simp only [encodeAll, encodeAll_cons, encodeAll_nil, encodeInteger_eq_some_iff, encodeString,
    encodeTlv_eq_some_iff] at hmsg
  obtain ⟨_, ⟨rfl, -⟩, _, ⟨rfl, -⟩, _, ⟨rfl, hpduLen⟩, rfl⟩ := hmsg
  obtain ⟨rfl, -⟩ := encodeTlv_eq_some_iff.mp (encodeAll_single.mp h)
  have hlist' := length_tlv tagSequence (tlv tagSequence (eoid ++ encodedValue setValue))
  refine ⟨eoid, heoid, ?_, hvarbindLen, _, rfl, ?_, _, rfl, ?_, rfl⟩
  · have := length_tlv tagSequence (eoid ++ encodedValue setValue)
    omega
  · simp only [List.length_append, List.nil_append] at hints hlist ⊢
    omega
  · simp only [List.length_append, List.nil_append] at hpduLen ⊢
    have := length_tlv pduType (tlv tagInteger (integerOctets 1001) ++
      tlv tagInteger (integerOctets nonRepeaters) ++ tlv tagInteger (integerOctets maxRepetitions) ++
      tlv tagSequence (tlv tagSequence (eoid ++ encodedValue setValue)))
    omega

/-! ### The round trip -/

/-- The entry for an encoded binding. -/
def encodedVarBind (oid : Bytes) : Option Bytes → VarBind
  | some s => ⟨tagOctetString, s.length, oid, s⟩
  | none => ⟨tagNull, nullText.length, oid, nullText⟩

theorem decodeVarbind_encodedValue {oid eoid : Bytes} {room : ℕ} {setValue : Option Bytes}
    (hoid : CanonicalOid oid) (hlen : oid.length < oidStrCap) (he : encodeOid room oid = some eoid)
    (hvalue : ∀ s ∈ setValue, (∀ c ∈ s, IsPrintable c) ∧ s.length < valueStrCap) :
    decodeVarbind (eoid ++ encodedValue setValue) = some (encodedVarBind oid setValue) := by
  cases setValue with
  | none => exact decodeVarbind_encode hoid hlen he (by decide) (by decide)
  | some s =>
      obtain ⟨hs, hcap⟩ := hvalue s rfl
      exact decodeVarbind_encode hoid hlen he (decodeValue_string hs hcap) hcap

/-- The protocol data unit of a response is decoded to its one binding. -/
theorem decodePdu_single {requestId errorIndex : ℤ} {vb : Bytes} {v : VarBind}
    (hrequest : IsInt32 requestId) (hindex : IsInt32 errorIndex) (hvb : vb.length ≤ sizeMax)
    (hlist : (tlv tagSequence vb).length ≤ sizeMax) (h : decodeVarbind vb = some v) :
    decodePdu (tlv tagInteger (integerOctets requestId) ++ tlv tagInteger (integerOctets 0) ++
      tlv tagInteger (integerOctets errorIndex) ++ tlv tagSequence (tlv tagSequence vb)) =
        some [v] := by
  rw [decodePdu, List.append_assoc, List.append_assoc, decodeInteger_tlv hrequest]
  simp only
  rw [decodeInteger_tlv (by decide)]
  simp only
  rw [decodeInteger_tlv hindex]
  simp only [ne_eq, not_true_eq_false, if_false]
  rw [decodeLast_iff.mpr ⟨hlist, rfl⟩]
  exact varbindLoop_single hvb h

/-- A message is decoded to the bindings of its protocol data unit. -/
theorem snmpAsnDecodeResponse_message {version : ℤ} {community pdu : Bytes} {vbs : List VarBind}
    (hversion : IsInt32 version) (hpdu : 4 ≤ pdu.length)
    (hmsg : (tlv tagInteger (integerOctets version) ++ tlv tagOctetString community ++
      tlv 0xA2 pdu).length ≤ sizeMax) (h : decodePdu pdu = some vbs) (out : List VarBind) :
    snmpAsnDecodeResponse (tlv tagSequence (tlv tagInteger (integerOctets version) ++
      tlv tagOctetString community ++ tlv 0xA2 pdu)) out = (true, out ++ vbs) := by
  have hlast : decodeLast tagSequence (tlv tagSequence (tlv tagInteger (integerOctets version) ++
      tlv tagOctetString community ++ tlv 0xA2 pdu)) = some _ := decodeLast_iff.mpr ⟨hmsg, rfl⟩
  have hlong := length_tlv tagSequence (tlv tagInteger (integerOctets version) ++
      tlv tagOctetString community ++ tlv 0xA2 pdu)
  have hcommunity := length_tlv tagOctetString community
  have hpduTlv := length_tlv 0xA2 pdu
  simp only [List.length_append] at hmsg hlong
  rw [snmpAsnDecodeResponse, if_neg (by omega), decodeMessage, hlast]
  simp only
  rw [List.append_assoc, decodeInteger_tlv hversion]
  simp only
  rw [decodeTlv_tlv tagOctetString (by omega)]
  simp only
  rw [decodeLast_iff.mpr ⟨by omega, rfl⟩]
  simp only
  rw [h]

/-- **Round trip**: what the encoder writes for a response with an error status of zero is
decoded to its one binding, with the object identifier and the value that were encoded. -/
theorem decode_encodePdu (bufSz : ℕ) (versionVal maxRepetitions : ℤ) (secName oid : Bytes)
    (setValue : Option Bytes) {e : Bytes} (hversion : IsInt32 versionVal)
    (hmax : IsInt32 maxRepetitions) (hoid : CanonicalOid oid) (hlen : oid.length < 256)
    (hvalue : ∀ s ∈ setValue, (∀ c ∈ s, IsPrintable c) ∧ s.length < 512)
    (h : snmpAsnEncodePdu bufSz 0xA2 versionVal secName oid 0 maxRepetitions setValue = some e)
    (out : List VarBind) :
    snmpAsnDecodeResponse e out = (true, out ++ [encodedVarBind oid setValue]) := by
  obtain ⟨eoid, heoid, hvb, hvbl, pdu, rfl, hpdu, msg, rfl, hmsg, rfl⟩ :=
    snmpAsnEncodePdu_eq_some h
  have hsize : 4096 ≤ sizeMax := by decide
  refine snmpAsnDecodeResponse_message hversion ?_ (hmsg.trans hsize) ?_ out
  · have := length_tlv tagInteger (integerOctets 1001)
    have := length_tlv tagInteger (integerOctets 0)
    simp only [List.length_append]
    omega
  · exact decodePdu_single (by decide) hmax (by omega) (by omega)
      (decodeVarbind_encodedValue hoid hlen heoid hvalue)

/-- A community, an object identifier with a large arc, and a text. -/
theorem decode_encodePdu_sample :
    snmpAsnDecodeResponse [0x30, 0x26, 0x02, 0x01, 0x01, 0x04, 0x02, 0x70, 0x75, 0xA2, 0x1D, 0x02,
        0x02, 0x03, 0xE9, 0x02, 0x01, 0x00, 0x02, 0x01, 0x0A, 0x30, 0x11, 0x30, 0x0F, 0x06, 0x08,
        0x2B, 0x06, 0x8F, 0xFF, 0xFF, 0xFF, 0x7F, 0x00, 0x04, 0x03, 0x75, 0x70, 0x21] [] =
      (true, [⟨tagOctetString, 3, ascii ['1', '.', '3', '.', '6', '.', '4', '2', '9', '4', '9', '6',
        '7', '2', '9', '5', '.', '0'], ascii ['u', 'p', '!']⟩]) :=
  decode_encodePdu 512 1 10 (ascii ['p', 'u']) _ (some (ascii ['u', 'p', '!'])) (by decide) (by decide)
    ⟨[ascii ['1'], ascii ['3'], ascii ['6'], ascii ['4', '2', '9', '4', '9', '6', '7', '2', '9',
      '5'], ascii ['0']], by decide, by decide +kernel, by decide⟩ (by decide)
    (by decide +kernel)
    rfl []

end Snmp
