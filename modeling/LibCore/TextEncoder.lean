import LibCore.HttpForms
import LibCore.Radix
import LibCore.StringBuilder

/-!
# The Text Encoder: URLs

`text_encoder.c` has an encoder and a decoder of URL components, written apart from `url_encode` of the
client and `url_decode_query_component` of the server. They append to a `StringBuilder`, and the decoder
is lenient: what `strtol` makes of two characters behind a `%` is a byte, and a `%` with fewer than two
characters behind it is dropped.

A C string is the list of its bytes, without the NUL.

## Main results

* `urlEncode_eq`: the encoder gives what fits of the encoding of the client.
* `urlDecode_eq`: where the server accepts a component, the decoder gives what fits of the same bytes.
* `url_codec_agreement`: the four functions, and the query of a request, agree.
-/

open CString

namespace TextEncoder

open StringBuilder

/-! ### The functions -/

/-- The bytes of a component that stay as they are. -/
def isUnreserved (c : UInt8) : Bool :=
  (0x41 ≤ c && c ≤ 0x5A) || (0x61 ≤ c && c ≤ 0x7A) || (0x30 ≤ c && c ≤ 0x39) ||
    c = 0x2D || c = 0x5F || c = 0x2E || c = 0x7E

/-- `hex`. -/
def hexTable : Bytes :=
  ascii ['0', '1', '2', '3', '4', '5', '6', '7', '8', '9', 'A', 'B', 'C', 'D', 'E', 'F']

/-- `urlEncodeTo`. -/
def urlEncodeTo (out : StringBuilder) : Bytes → StringBuilder
  | [] => out
  | c :: input =>
      if isUnreserved c then urlEncodeTo (out.appendChar c) input
      else
        let out := out.appendChar 0x25
        let out := out.appendChar (hexTable.getD (c >>> 4).toNat 0)
        let out := out.appendChar (hexTable.getD (c &&& 0x0F).toNat 0)
        urlEncodeTo out input

/-- `strtol` in base 16, on a text too short to overflow: blanks, a sign, `0x` and digits. -/
def strtolHex (s : Bytes) : ℤ :=
  let s := s.dropWhile isspace
  let negative : Bool := s.head? = some 0x2D
  let s := if negative || s.head? = some 0x2B then s.drop 1 else s
  let s := if s.take 2 = ascii ['0', 'x'] || s.take 2 = ascii ['0', 'X'] then s.drop 2 else s
  let v : ℤ := Radix.value 16 ((s.takeWhile isxdigit).map fun c => (hexDigit c).toNat)
  if negative then -v else v

/-- `urlDecodeTo`. -/
def urlDecodeTo (out : StringBuilder) : Bytes → StringBuilder
  | [] => out
  | c :: input =>
      if c = 0x25 then
        match input with
        | h :: l :: rest => urlDecodeTo (out.appendChar (UInt8.ofInt (strtolHex [h, l]))) rest
        | [d] => urlDecodeTo out [d]
        | [] => out
      else if c = 0x2B then urlDecodeTo (out.appendChar 0x20) input
      else urlDecodeTo (out.appendChar c) input

/-- `urlEncode`. -/
def urlEncode (input : Bytes) : Bytes := (urlEncodeTo (StringBuilder.new 32) input).toString

/-- `urlDecode`. -/
def urlDecode (input : Bytes) : Bytes := (urlDecodeTo (StringBuilder.new 32) input).toString

/-! ### The encoder -/

/-- Both encoders keep the same bytes. -/
theorem isUnreserved_eq (c : UInt8) : isUnreserved c = HttpRequestBuilder.isUnreserved c := by
  have hmarks : (c ∈ ascii ['-', '_', '.', '~']) ↔ c = 0x2D ∨ c = 0x5F ∨ c = 0x2E ∨ c = 0x7E := by
    rw [show ascii ['-', '_', '.', '~'] = [0x2D, 0x5F, 0x2E, 0x7E] from rfl]
    simp
  rw [Bool.eq_iff_iff]
  simp only [isUnreserved, HttpRequestBuilder.isUnreserved, isalnum, isdigit, Bool.or_eq_true,
    Bool.and_eq_true, decide_eq_true_eq, hmarks]
  grind

/-- The table has the digits `snprintf` writes for `%02X`. -/
theorem hexTable_getD {d : UInt8} (hd : d.toNat < 16) :
    hexTable.getD d.toNat 0 = HttpRequestBuilder.upperHex d := by
  have hall : ∀ n : Fin 16, hexTable.getD n.val 0 = HttpRequestBuilder.upperHex (UInt8.ofNat n.val) := by
    decide
  have h := hall ⟨d.toNat, hd⟩
  rwa [UInt8.ofNat_toNat] at h

theorem toNat_shiftRight_lt (c : UInt8) : (c >>> 4).toNat < 16 := by
  have hlt := c.toNat_lt
  have heq : (c >>> 4).toNat = c.toNat / 16 := by
    rw [UInt8.toNat_shiftRight]
    exact Nat.shiftRight_eq_div_pow c.toNat 4
  omega

theorem toNat_and_lt (c : UInt8) : (c &&& 0x0F).toNat < 16 := by
  rw [UInt8.toNat_and]
  exact Nat.lt_succ_of_le Nat.and_le_right

/-- The builder gets the encoding of the client. -/
theorem Holds.urlEncodeTo {out : StringBuilder} {text : Bytes} (h : out.Holds text) (input : Bytes) :
    (urlEncodeTo out input).Holds (text ++ HttpRequestBuilder.urlEncode input) := by
  induction input generalizing out text with
  | nil => simpa [TextEncoder.urlEncodeTo, HttpRequestBuilder.urlEncode] using h
  | cons c input ih =>
      rw [TextEncoder.urlEncodeTo, isUnreserved_eq, HttpRequestBuilder.urlEncode, List.flatMap_cons,
        ← HttpRequestBuilder.urlEncode, HttpRequestBuilder.urlEncodeByte, ← List.append_assoc]
      split_ifs with hplain
      · exact ih (h.appendChar c)
      · rw [hexTable_getD (toNat_shiftRight_lt c), hexTable_getD (toNat_and_lt c)]
        have hout := ((h.appendChar 0x25).appendChar (HttpRequestBuilder.upperHex (c >>> 4))).appendChar
          (HttpRequestBuilder.upperHex (c &&& 0x0F))
        rw [List.append_assoc, List.append_assoc] at hout
        exact ih hout

/-! ### The decoder -/

/-- A hexadecimal digit is no blank, no sign and no `x`. -/
theorem isxdigit_ne {c : UInt8} (h : isxdigit c = true) :
    isspace c = false ∧ c ≠ 0x2D ∧ c ≠ 0x2B ∧ c ≠ 0x78 ∧ c ≠ 0x58 := by
  refine ⟨?_, ?_, ?_, ?_, ?_⟩ <;> grind

/-- `strtol` reads both digits. -/
theorem strtolHex_pair {h l : UInt8} (hh : isxdigit h = true) (hl : isxdigit l = true) :
    strtolHex [h, l] = ((hexDigit h).toNat * 16 + (hexDigit l).toNat : ℕ) := by
  obtain ⟨hblank, hminus, hplus, -, -⟩ := isxdigit_ne hh
  obtain ⟨-, -, -, hx, hX⟩ := isxdigit_ne hl
  have hlow : ascii ['0', 'x'] = [0x30, 0x78] := rfl
  have hupp : ascii ['0', 'X'] = [0x30, 0x58] := rfl
  simp [strtolHex, hblank, hminus, hplus, hx, hX, hlow, hupp, hh, hl, Radix.value]

theorem ofInt_natCast (n : ℕ) : UInt8.ofInt (n : ℤ) = UInt8.ofNat n := by
  have hmod : ((n : ℤ) % 2 ^ 8).toNat = n % 2 ^ 8 := by omega
  rw [UInt8.ofInt, hmod]
  exact UInt8.ofNat_mod_size

/-- What the server makes of two digits is the byte of the decoder. -/
theorem ofInt_strtolHex {h l hi lo : UInt8} (hhi : HttpServer.hexValue h = some hi)
    (hlo : HttpServer.hexValue l = some lo) : UInt8.ofInt (strtolHex [h, l]) = hi * 16 + lo := by
  simp only [HttpServer.hexValue, Option.ite_none_right_eq_some, Option.some.injEq] at hhi hlo
  obtain ⟨hh, rfl⟩ := hhi
  obtain ⟨hl, rfl⟩ := hlo
  rw [strtolHex_pair hh hl, ofInt_natCast]
  simp

/-- The builder gets what the server makes of a component it accepts. -/
theorem Holds.urlDecodeTo {out : StringBuilder} {text : Bytes} (h : out.Holds text) {s t : Bytes}
    (hs : HttpServer.urlDecodeQueryComponent s = some t) :
    (urlDecodeTo out s).Holds (text ++ t) := by
  fun_induction HttpServer.urlDecodeQueryComponent s generalizing out text t with
  | case1 =>
      obtain rfl := Option.some.inj hs
      rwa [TextEncoder.urlDecodeTo, List.append_nil]
  | case2 => cases hs
  | case3 hd lo rest hi lo' hlo hhi hne ih =>
      obtain ⟨t, ht, rfl⟩ := Option.map_eq_some_iff.mp hs
      rw [TextEncoder.urlDecodeTo, if_pos rfl, ofInt_strtolHex hhi hlo, List.append_cons]
      exact ih (h.appendChar _) ht
  | case4 => cases hs
  | case5 => cases hs
  | case6 rest hne ih =>
      obtain ⟨t, ht, rfl⟩ := Option.map_eq_some_iff.mp hs
      rw [TextEncoder.urlDecodeTo.eq_def]
      dsimp only
      rw [if_neg hne, if_pos rfl, List.append_cons]
      exact ih (h.appendChar _) ht
  | case7 c rest hpercent hplus ih =>
      obtain ⟨t, ht, rfl⟩ := Option.map_eq_some_iff.mp hs
      rw [TextEncoder.urlDecodeTo.eq_def]
      dsimp only
      rw [if_neg hpercent, if_neg hplus, List.append_cons]
      exact ih (h.appendChar _) ht

/-! ### Texts -/

theorem isUnreserved_upperHex {d : UInt8} (hd : d.toNat < 16) :
    isUnreserved (HttpRequestBuilder.upperHex d) = true := by
  have hall : ∀ n : Fin 16, isUnreserved (HttpRequestBuilder.upperHex (UInt8.ofNat n.val)) = true := by
    decide
  have h := hall ⟨d.toNat, hd⟩
  rwa [UInt8.ofNat_toNat] at h

/-- The encoding has `%` and unreserved bytes only. -/
theorem mem_urlEncode {s : Bytes} {c : UInt8} (hc : c ∈ HttpRequestBuilder.urlEncode s) :
    c = 0x25 ∨ isUnreserved c = true := by
  obtain ⟨b, -, hb⟩ := List.mem_flatMap.mp hc
  rw [HttpRequestBuilder.urlEncodeByte, ← isUnreserved_eq] at hb
  split_ifs at hb with hplain
  · exact .inr (List.mem_singleton.mp hb ▸ hplain)
  · simp only [List.mem_cons, List.not_mem_nil, or_false] at hb
    rcases hb with rfl | rfl | rfl
    · exact .inl rfl
    · exact .inr (isUnreserved_upperHex (toNat_shiftRight_lt b))
    · exact .inr (isUnreserved_upperHex (toNat_and_lt b))

theorem zero_notMem_urlEncode (s : Bytes) : 0 ∉ HttpRequestBuilder.urlEncode s := fun h => by
  rcases mem_urlEncode h with h | h
  · cases h
  · exact absurd h (by decide)

/-- The decoded text has no NUL. -/
theorem zero_notMem_of_urlDecode {s t : Bytes} (hnul : 0 ∉ s)
    (hs : HttpServer.urlDecodeQueryComponent s = some t) : 0 ∉ t := by
  fun_induction HttpServer.urlDecodeQueryComponent s generalizing t with
  | case1 =>
      obtain rfl := Option.some.inj hs
      exact List.not_mem_nil
  | case2 => cases hs
  | case3 hd lo rest hi lo' hlo hhi hne ih =>
      obtain ⟨t, ht, rfl⟩ := Option.map_eq_some_iff.mp hs
      simp only [List.mem_cons, not_or] at hnul ⊢
      exact ⟨Ne.symm hne, ih hnul.2.2.2 ht⟩
  | case4 => cases hs
  | case5 => cases hs
  | case6 rest hne ih =>
      obtain ⟨t, ht, rfl⟩ := Option.map_eq_some_iff.mp hs
      simp only [List.mem_cons, not_or] at hnul ⊢
      exact ⟨by decide, ih hnul.2 ht⟩
  | case7 c rest hpercent hplus ih =>
      obtain ⟨t, ht, rfl⟩ := Option.map_eq_some_iff.mp hs
      simp only [List.mem_cons, not_or] at hnul ⊢
      exact ⟨hnul.1, ih hnul.2 ht⟩

/-- The encoder gives what fits of the encoding of the client. -/
theorem urlEncode_eq (s : Bytes) :
    urlEncode s = (HttpRequestBuilder.urlEncode s).take maxLength := by
  have h := Holds.urlEncodeTo (holds_new (k := 5) (by omega) (rfl : 32 = 2 ^ 5)) s
  rw [List.nil_append] at h
  exact h.toString_eq (zero_notMem_urlEncode s)

/-- Where the server accepts a component, the decoder gives what fits of the same bytes. -/
theorem urlDecode_eq {s t : Bytes} (hnul : 0 ∉ s)
    (hs : HttpServer.urlDecodeQueryComponent s = some t) : urlDecode s = t.take maxLength := by
  have h := Holds.urlDecodeTo (holds_new (k := 5) (by omega) (rfl : 32 = 2 ^ 5)) hs
  rw [List.nil_append] at h
  exact h.toString_eq (zero_notMem_of_urlDecode hnul hs)

/-! ### The query of a request -/

section Query

open HttpServer

/-- The head of a request whose target has a query. -/
def requestText (method path query version rest : Bytes) : Bytes :=
  method ++ 0x20 :: (path ++ 0x3F :: query ++ 0x20 :: (version ++ (crlf ++ rest)))

/-- The parts of a request line the server can tell apart and has room for. -/
structure QueryLine (method path query version : Bytes) : Prop where
  method_length : 0 < method.length ∧ method.length < 16
  method_plain : ∀ c ∈ method, c ≠ 0 ∧ c ≠ 0x20 ∧ c ≠ 0x0D
  path_plain : ∀ c ∈ path, c ≠ 0 ∧ c ≠ 0x20 ∧ c ≠ 0x0D ∧ c ≠ 0x3F
  version_plain : ∀ c ∈ version, c ≠ 0 ∧ c ≠ 0x0D
  fits : path.length + 1 + query.length < 2048

variable {method path query version : Bytes}

/-- The server finds the method, the path and the query. -/
theorem parseRequestLine_requestText (h : QueryLine method path query version)
    (hquery : ∀ c ∈ query, c ≠ 0 ∧ c ≠ 0x20 ∧ c ≠ 0x0D) (rest : Bytes) :
    parseRequestLine (requestText method path query version rest) =
      .ok ⟨methodOf method, path, query⟩ := by
  obtain ⟨target, htarget⟩ : ∃ target, path ++ 0x3F :: query = target := ⟨_, rfl⟩
  have hplain : ∀ c ∈ target, c ≠ 0 ∧ c ≠ 0x20 ∧ c ≠ 0x0D := by
    rw [← htarget]
    intro c hc
    rcases List.mem_append.mp hc with hc | hc
    · exact ⟨(h.path_plain c hc).1, (h.path_plain c hc).2.1, (h.path_plain c hc).2.2.1⟩
    · rcases List.mem_cons.mp hc with rfl | hc
      · decide
      · exact hquery c hc
  obtain ⟨line, hline⟩ : ∃ line, method ++ 0x20 :: (target ++ 0x20 :: version) = line := ⟨_, rfl⟩
  have hwhole : ∀ c ∈ line, c ≠ 0 ∧ c ≠ 0x0D := by
    rw [← hline]
    intro c hc
    simp only [List.mem_append, List.mem_cons] at hc
    rcases hc with hc | rfl | hc | rfl | hc
    · exact ⟨(h.method_plain c hc).1, (h.method_plain c hc).2.2⟩
    · decide
    · exact ⟨(hplain c hc).1, (hplain c hc).2.2⟩
    · decide
    · exact h.version_plain c hc
  have hbuf : requestText method path query version rest = line ++ (crlf ++ rest) := by
    simp [requestText, ← hline, ← htarget]
  have hend : strstr crlf (line ++ (crlf ++ rest)) = some line.length :=
    strstr_append_cons (fun hc => (hwhole _ hc).2 rfl) (fun hc => (hwhole _ hc).1 rfl) [0x0A] rest
  have hspace : strchr 0x20 (line ++ (crlf ++ rest)) = some method.length := by
    have hmethod : ∀ c ∈ method, decide (c ≠ 0) = true := fun c hc => by simp [(h.method_plain c hc).1]
    rw [← hline, strchr, cstr, List.append_assoc, List.takeWhile_append_of_pos hmethod, List.cons_append,
      List.takeWhile_cons_of_pos (by decide), memchr_append_cons fun hc => (h.method_plain _ hc).2.1 rfl]
  have hafter : ((line ++ (crlf ++ rest)).take line.length).drop (method.length + 1) =
      target ++ 0x20 :: version := by
    rw [List.take_left, ← hline, ← List.singleton_append, ← List.append_assoc]
    exact List.drop_left' (by simp)
  have hsecond : memchr 0x20 (target ++ 0x20 :: version) = some target.length :=
    memchr_append_cons (fun hc => (hplain _ hc).2.1 rfl) version
  have htake : (line ++ (crlf ++ rest)).take method.length = method := by
    rw [← hline, List.append_assoc, List.take_left]
  have hpath : target.takeWhile (· ≠ 0x3F) = path := by
    rw [← htarget, List.takeWhile_append_of_pos fun c hc => by simp [(h.path_plain c hc).2.2.2]]
    simp
  have hlen : target.length = path.length + 1 + query.length := by
    rw [← htarget, List.length_append, List.length_cons]
    omega
  have hmethod := h.method_length
  have hfits := h.fits
  have hlineLen : method.length < line.length := by
    rw [← hline, List.length_append, List.length_cons]
    omega
  rw [hbuf, parseRequestLine, hend, hspace]
  dsimp only
  rw [if_neg (by omega), if_neg (by omega), hafter, hsecond]
  dsimp only
  rw [if_neg (by omega), List.take_left, hpath, htake, ← htarget, ← List.singleton_append,
    ← List.append_assoc, List.drop_left' (by simp)]

/-- The encoded fields have no byte that ends a target. -/
theorem formItem_plain {e : Bytes × Bytes} {c : UInt8} (hc : c ∈ HttpForms.formItem e) :
    c ≠ 0 ∧ c ≠ 0x20 ∧ c ≠ 0x0D := by
  have hcomponent : ∀ s, c ∈ HttpRequestBuilder.urlEncode s → c ≠ 0 ∧ c ≠ 0x20 ∧ c ≠ 0x0D := by
    intro s hs
    rcases mem_urlEncode hs with rfl | hplain
    · decide
    · refine ⟨?_, ?_, ?_⟩ <;> rintro rfl <;> exact absurd hplain (by decide)
  rcases List.mem_append.mp hc with hc | hc
  · exact hcomponent _ hc
  · rcases List.mem_cons.mp hc with rfl | hc
    · decide
    · exact hcomponent _ hc

theorem mem_intercalate {sep : UInt8} {c : UInt8} {items : List Bytes}
    (hc : c ∈ [sep].intercalate items) : c = sep ∨ ∃ item ∈ items, c ∈ item := by
  cases items with
  | nil => simp [List.intercalate] at hc
  | cons item items =>
      rw [HttpRequestBuilder.intercalate_cons_eq] at hc
      rcases List.mem_append.mp hc with hc | hc
      · exact .inr ⟨item, List.mem_cons_self, hc⟩
      · obtain ⟨t, ht, hc⟩ := List.mem_flatMap.mp hc
        rcases List.mem_cons.mp hc with rfl | hc
        · exact .inl rfl
        · exact .inr ⟨t, List.mem_cons_of_mem _ ht, hc⟩

section RoundTrip

variable {data : HashMap Bytes} {f : HashMap.FMap Bytes}

/-- A form without fields has no text. -/
theorem buildFormBody_empty (hrep : data.Represents ∅) : HttpRequestBuilder.buildFormBody data = none := by
  have hnil : data.entries = [] := by
    refine List.eq_nil_iff_forall_not_mem.mpr fun e he => ?_
    have hlookup := (hrep.mem_iff e.1 e.2).mp he
    rw [Finmap.lookup_empty] at hlookup
    cases hlookup
  have hsize : data.getSize = 0 := by
    rw [HashMap.getSize, hrep.size, hnil]
    rfl
  rw [HttpRequestBuilder.buildFormBody, if_pos hsize]

/-- The query loop gives the map back. -/
theorem parseQuery_getD (hrep : data.Represents f)
    (hshort : ∀ k v, f.lookup k = some v → k.length < maxKeyLen)
    (hnul : ∀ k v, f.lookup k = some v → 0 ∉ k ∧ 0 ∉ v) :
    ∃ q, parseQuery (strtok 0x26 ((HttpRequestBuilder.buildFormBody data).getD [])) (HashMap.new 16) =
      some q ∧ q.Represents f := by
  by_cases hne : f = ∅
  · subst hne
    rw [buildFormBody_empty hrep]
    exact ⟨HashMap.new 16, rfl, HashMap.represents_new 16⟩
  · obtain ⟨body, hbody, hparse⟩ :=
      HttpForms.parseQuery_buildFormBody hrep hne hshort hnul (HashMap.new 16)
    obtain ⟨f', hf', hin, hout⟩ := (HashMap.represents_new 16).foldl_put
      (fun e he => hshort e.1 e.2 ((hrep.mem_iff e.1 e.2).mp he)) hrep.keys_nodup
    have heq : f' = f := Finmap.ext_lookup fun k => by
      by_cases hk : ∃ e ∈ data.entries, e.1 = k
      · obtain ⟨e, he, rfl⟩ := hk
        rw [hin e he, (hrep.mem_iff e.1 e.2).mp he]
      · rw [hout k fun e he heq => hk ⟨e, he, heq⟩, Finmap.lookup_empty]
        refine (Option.eq_none_iff_forall_ne_some.mpr fun v hv => hk ?_).symm
        exact ⟨(k, v), (hrep.mem_iff k v).mpr hv, rfl⟩
    rw [hbody]
    exact ⟨_, hparse, heq ▸ hf'⟩

/-- The query text of a form has no byte that ends a target. -/
theorem buildFormBody_plain (hrep : data.Represents f)
    (hshort : ∀ k v, f.lookup k = some v → k.length < maxKeyLen) :
    ∀ c ∈ (HttpRequestBuilder.buildFormBody data).getD [], c ≠ 0 ∧ c ≠ 0x20 ∧ c ≠ 0x0D := by
  intro c hc
  cases hbody : HttpRequestBuilder.buildFormBody data with
  | none => simp [hbody] at hc
  | some body =>
      have hne : f ≠ ∅ := by
        rintro rfl
        rw [buildFormBody_empty hrep] at hbody
        cases hbody
      rw [HttpForms.buildFormBody_eq hrep hne hshort] at hc
      rcases mem_intercalate hc with rfl | ⟨item, hitem, hc⟩
      · decide
      · obtain ⟨e, -, rfl⟩ := List.mem_map.mp hitem
        exact formItem_plain hc

end RoundTrip

/-- **Agreement of the URL codecs.** Where the encoded text is under the cap of the builder, both encoders
give the same text, and each decoder gives back what was encoded. Of a component that the server accepts,
the decoder makes the same bytes, exactly when these are under the cap. And the server reads, from the
query of a request line it has room for, the map whose form text the query is. -/
theorem url_codec_agreement :
    (∀ s : Bytes, 0 ∉ s → (HttpRequestBuilder.urlEncode s).length < ByteBuffer.maxCapacity →
      urlEncode s = HttpRequestBuilder.urlEncode s ∧
        urlDecodeQueryComponent (HttpRequestBuilder.urlEncode s) = some s ∧
        urlDecode (urlEncode s) = s) ∧
    (∀ s t : Bytes, 0 ∉ s → urlDecodeQueryComponent s = some t →
      (urlDecode s = t ↔ t.length < ByteBuffer.maxCapacity)) ∧
    ∀ (data : HashMap Bytes) (f : HashMap.FMap Bytes), data.Represents f →
      (∀ k v, f.lookup k = some v → k.length < maxKeyLen) →
      (∀ k v, f.lookup k = some v → 0 ∉ k ∧ 0 ∉ v) →
      ∀ method path version rest : Bytes,
        QueryLine method path ((HttpRequestBuilder.buildFormBody data).getD []) version →
        ∃ line query, parseRequestLine (requestText method path
            ((HttpRequestBuilder.buildFormBody data).getD []) version rest) = .ok line ∧
          line.method = methodOf method ∧ line.path = path ∧
          parseQuery (strtok 0x26 line.queryString) (HashMap.new 16) = some query ∧
          query.Represents f := by
  have hdecode : ∀ s t : Bytes, 0 ∉ s → urlDecodeQueryComponent s = some t →
      (urlDecode s = t ↔ t.length < ByteBuffer.maxCapacity) := by
    intro s t hnul hs
    rw [urlDecode_eq hnul hs, List.take_eq_self_iff, le_maxLength_iff]
  refine ⟨fun s hnul hlen => ?_, hdecode, ?_⟩
  · have hback := HttpForms.urlDecode_urlEncode hnul
    have hsame : urlEncode s = HttpRequestBuilder.urlEncode s := by
      rw [urlEncode_eq, List.take_of_length_le (le_maxLength_iff.mpr hlen)]
    refine ⟨hsame, hback, ?_⟩
    rw [hsame, hdecode _ _ (zero_notMem_urlEncode s) hback]
    exact (HttpForms.length_le_urlEncode s).1.trans_lt hlen
  · intro data f hrep hshort hnul method path version rest hline
    obtain ⟨query, hparse, hquery⟩ := parseQuery_getD hrep hshort hnul
    exact ⟨_, query, parseRequestLine_requestText hline (buildFormBody_plain hrep hshort) rest, rfl, rfl,
      hparse, hquery⟩

/-- A text that needs no encoding and does not fit the builder: the server takes it, the decoder cuts it. -/
theorem urlDecode_beyond_cap :
    urlDecodeQueryComponent (List.replicate ByteBuffer.maxCapacity 0x61) =
        some (List.replicate ByteBuffer.maxCapacity 0x61) ∧
      urlDecode (List.replicate ByteBuffer.maxCapacity 0x61) ≠
        List.replicate ByteBuffer.maxCapacity 0x61 := by
  have hnul : (0 : UInt8) ∉ List.replicate ByteBuffer.maxCapacity 0x61 := by
    rw [List.mem_replicate]
    rintro ⟨-, h⟩
    cases h
  have hplain : HttpForms.IsPlain (List.replicate ByteBuffer.maxCapacity 0x61) := by
    intro c hc
    rw [List.eq_of_mem_replicate hc]
    decide
  have haccept := HttpForms.urlDecode_urlEncode hnul
  rw [HttpForms.urlEncode_of_isPlain hplain] at haccept
  refine ⟨haccept, fun heq => ?_⟩
  rw [urlDecode_eq hnul haccept, List.take_eq_self_iff, List.length_replicate, le_maxLength_iff] at heq
  exact lt_irrefl _ heq

end Query

end TextEncoder
