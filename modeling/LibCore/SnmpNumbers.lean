import LibCore.SnmpDecode

/-!
# The Numbers of SNMP Responses

`asLong` of `snmp_asn.c` reads the number of a variable binding back from the text that the decoder has
printed. An integer, a counter and a gauge are printed in decimal. Hundredths of a second are printed as
days, hours, minutes and seconds, and of these only the days are read back.

## Main results

* `atoll_decimal_append`: reading back a decimal text.
* `asLong_iff`: when `asLong` gives the value on the wire.
-/

open CString Radix Asn1

namespace Snmp

/-- `atoll`: white space, a sign and digits. A number that does not fit a `long long` is saturated. -/
def atoll (s : Bytes) : ℤ :=
  let start := s.dropWhile isspace
  let signed := start.head?.any fun c => c = 0x2B || c = 0x2D
  let value : ℤ := decimalValue ((if signed then start.tail else start).takeWhile isdigit)
  max (-2 ^ 63) (min (2 ^ 63 - 1) (if start.head? = some 0x2D then -value else value))

/-- `varbind_as_long_impl`. -/
def asLong (v : VarBind) : ℤ :=
  if v.tag ∈ [tagInteger, tagCounter32, tagGauge32, tagTimeTicks, tagCounter64] then atoll v.valueStr
  else 0

/-- The number on the wire: a signed number in an integer, an unsigned one in all others. -/
def WireVarBind.value (w : WireVarBind) : ℤ :=
  if w.tag = tagInteger then signedValue w.valueContent else octetValue w.valueContent

/-! ### Reading back -/

theorem takeWhile_decimal (n : ℕ) {rest : Bytes} (hrest : ∀ c ∈ rest.head?, isdigit c = false) :
    (decimal n ++ rest).takeWhile isdigit = decimal n :=
  takeWhile_append (fun _ => isdigit_of_mem_decimal) hrest

/-- The number in front of something else is **read back**. -/
theorem atoll_decimal_append {n : ℕ} (hn : n < 2 ^ 63) {rest : Bytes}
    (hrest : ∀ c ∈ rest.head?, isdigit c = false) : atoll (decimal n ++ rest) = n := by
  have htake := takeWhile_decimal n hrest
  obtain ⟨c, digits, hc⟩ := List.exists_cons_of_ne_nil (decimal_ne_nil n)
  have hdigit : isdigit c = true := isdigit_of_mem_decimal (n := n) (by simp [hc])
  obtain ⟨hspace, hplus, hminus⟩ := isdigit_head hdigit
  have hstart : (decimal n ++ rest).dropWhile isspace = decimal n ++ rest := by
    rw [hc, List.cons_append, List.dropWhile_cons_of_neg (by simp [hspace])]
  have hhead : (decimal n ++ rest).head? = some c := by
    rw [hc]
    rfl
  simp only [atoll, hstart, hhead, Option.any_some, hplus, hminus, decide_false, Bool.or_self,
    Bool.false_eq_true, if_false, htake, decimalValue_decimal, Option.some.injEq]
  omega

theorem atoll_decimal {n : ℕ} (hn : n < 2 ^ 63) : atoll (decimal n) = n := by
  have h := @atoll_decimal_append n hn [] (by simp)
  rwa [List.append_nil] at h

theorem atoll_signedDecimal {v : ℤ} (hv : IsInt32 v) : atoll (signedDecimal v) = v := by
  obtain ⟨hmin, hmax⟩ := hv
  by_cases hneg : v < 0
  · have htake := @takeWhile_decimal v.natAbs [] (by simp)
    have hstart : (0x2D :: decimal v.natAbs).dropWhile isspace = 0x2D :: decimal v.natAbs :=
      List.dropWhile_cons_of_neg (by decide)
    rw [List.append_nil] at htake
    rw [signedDecimal, if_pos hneg, atoll]
    simp only [hstart, List.head?_cons, Option.any_some, decide_true, Bool.or_true, if_true, List.tail_cons,
      htake, decimalValue_decimal]
    omega
  · rw [signedDecimal, if_neg hneg, atoll_decimal (by omega)]
    omega

/-- Of a number of hundredths of a second, the days are read back. -/
theorem atoll_timeTicksText {v : ℕ} (hv : v ≤ uint32Max) : atoll (timeTicksText v) = v / 100 / 86400 := by
  have htext : timeTicksText v = decimal (v / 100 / 86400) ++ (ascii [' ', 'd', 'a', 'y', 's', ' '] ++
      twoDigits (v / 100 % 86400 / 3600) ++ 0x3A :: twoDigits (v / 100 % 3600 / 60) ++
      0x3A :: twoDigits (v / 100 % 60)) := by
    simp [timeTicksText]
  have hlt : v / 100 / 86400 < 2 ^ 63 := by
    simp only [uint32Max] at hv
    omega
  rw [htext, atoll_decimal_append hlt fun c hc => by
    obtain rfl : ' '.toUInt8 = c := by simpa [ascii] using hc
    rfl]
  omega

/-! ### The values -/

/-- The tags of the numbers of 32 bits. -/
def IsNumber (tag : UInt8) : Prop :=
  tag = tagInteger ∨ tag = tagCounter32 ∨ tag = tagGauge32 ∨ tag = tagTimeTicks

/-- The texts of the numbers of 32 bits. -/
theorem ValueText.number {tag : UInt8} {content val : Bytes} (h : ValueText tag content val)
    (hnum : IsNumber tag) :
    (tag = tagInteger ∧ ∃ v, IsInt32 v ∧ content = integerOctets v ∧ val = signedDecimal v) ∨
      ((tag = tagCounter32 ∨ tag = tagGauge32) ∧ octetValue content ≤ uint32Max ∧
        val = decimal (octetValue content)) ∨
      (tag = tagTimeTicks ∧ octetValue content ≤ uint32Max ∧ val = timeTicksText (octetValue content)) := by
  have hother : tag ∉ [tagCounter64, tagIpAddress, tagOctetString, 0x44, tagObjectId, tagNull, 0x80, 0x81,
      0x82] := by
    rcases hnum with rfl | rfl | rfl | rfl <;> decide
  cases h with
  | integer hv => exact .inl ⟨rfl, _, hv, rfl, rfl⟩
  | unsigned htag hmax => exact .inr (.inl ⟨htag, hmax, rfl⟩)
  | timeTicks hmax => exact .inr (.inr ⟨rfl, hmax, rfl⟩)
  | counter64 | ipAddress | objectId | null => exact absurd (by simp) hother
  | printable htag | hex htag => exact absurd (by rcases htag with rfl | rfl <;> simp) hother
  | exception htag => exact absurd (by rcases htag with rfl | rfl | rfl <;> simp) hother

/-- A binding whose text says what its content denotes. -/
theorem Denotes.value_iff {w : WireVarBind} {v : VarBind} (h : Denotes w v) (hnum : IsNumber w.tag) :
    asLong v = w.value ↔ w.tag ≠ tagTimeTicks ∨ w.value = 0 := by
  have hlong : asLong v = atoll v.valueStr := by
    rw [asLong, h.tag, if_pos]
    rcases hnum with htag | htag | htag | htag <;> simp [htag]
  rw [hlong, WireVarBind.value]
  rcases h.value.number hnum with ⟨htag, n, hn, hcontent, hval⟩ | ⟨htag, hmax, hval⟩ | ⟨htag, hmax, hval⟩
  · have hsigned : signedValue (integerOctets n) = n := by
      rw [integerOctets, signedValue_trimSigned, signedValue_signedOctets hn]
    rw [hval, htag, hcontent, if_pos rfl, hsigned, atoll_signedDecimal hn]
    exact iff_of_true rfl (.inl (by decide))
  · have hne : w.tag ≠ tagInteger ∧ w.tag ≠ tagTimeTicks := by
      rcases htag with htag | htag <;> rw [htag] <;> decide
    have hlt : octetValue w.valueContent < 2 ^ 63 := by
      simp only [uint32Max] at hmax
      omega
    rw [hval, if_neg hne.1, atoll_decimal hlt]
    exact iff_of_true rfl (.inl hne.2)
  · rw [hval, htag, if_neg (by decide), atoll_timeTicksText hmax]
    simp only [ne_eq, not_true_eq_false, false_or]
    omega

/-- **When `asLong` gives the value on the wire.** An accepted response is a message, and for every binding
of a number of 32 bits `asLong` gives its value if and only if it does not count hundredths of a second, or
counts none. -/
theorem asLong_iff (buf : Bytes) (out : List VarBind) (h : (snmpAsnDecodeResponse buf out).1 = true) :
    ∃ m : WireMessage, buf = m.bytes ∧ ∃ vbs, (snmpAsnDecodeResponse buf out).2 = out ++ vbs ∧
      List.Forall₂ (fun w v => Denotes w v ∧ (IsNumber w.tag →
        (asLong v = w.value ↔ w.tag ≠ tagTimeTicks ∨ w.value = 0))) m.varbinds vbs := by
  obtain ⟨m, hbuf, -, vbs, hout, hvbs⟩ := (snmpAsnDecodeResponse_sound buf out).2 h
  exact ⟨m, hbuf, vbs, hout, hvbs.imp fun w v hw => ⟨hw, hw.value_iff⟩⟩

/-- A response with one binding, `1.3` with an uptime of ten seconds. -/
def uptimeResponse : Bytes :=
  [0x30, 0x1B, 0x02, 0x01, 0x01, 0x04, 0x00, 0xA2, 0x14, 0x02, 0x01, 0x07, 0x02, 0x01, 0x00,
    0x02, 0x01, 0x00, 0x30, 0x09, 0x30, 0x07, 0x06, 0x01, 0x2B, 0x43, 0x02, 0x03, 0xE8]

theorem asLong_iff_sample :
    ∃ m : WireMessage, uptimeResponse = m.bytes ∧
      ∃ vbs, (snmpAsnDecodeResponse uptimeResponse []).2 = [] ++ vbs ∧
        List.Forall₂ (fun w v => Denotes w v ∧ (IsNumber w.tag →
          (asLong v = w.value ↔ w.tag ≠ tagTimeTicks ∨ w.value = 0))) m.varbinds vbs :=
  asLong_iff uptimeResponse [] rfl

/-- Ten seconds are read back as no days. -/
theorem asLong_uptime :
    ∃ w v, uptimeResponse = (⟨1, [], 7, 0, 0, [w]⟩ : WireMessage).bytes ∧
      snmpAsnDecodeResponse uptimeResponse [] = (true, [v]) ∧ w.tag = tagTimeTicks ∧ w.value = 1000 ∧
      asLong v = 0 := by
  refine ⟨⟨[0x2B], tagTimeTicks, [0x03, 0xE8]⟩,
    ⟨tagTimeTicks, 15, [0x31, 0x2E, 0x33], timeTicksText 1000⟩, ?_⟩
  decide +kernel

end Snmp
