import LibCore.Asn1RoundTrip
import LibCore.Snmp

/-!
# Decoding SNMP Responses

What `snmp_asn_decode_response` accepts. A response is a message on the wire (`WireMessage`):
nested elements, each of a tag, a length and a content, that fill their parents exactly. An
accepted buffer is such a message with an error status of zero, and the caller's list grows
by one binding for each binding of the message, in the order of the wire, with the dotted
object identifier, the tag and the text of the value.

## Main results

* `contentArcs_sound`: the arcs of an object identifier are the groups of its content.
* `decodeValue_sound`: the text of a value says what its content denotes.
* `snmpAsnDecodeResponse_sound`: the decoder is exact, and it appends all or nothing.
-/

open CString Radix Asn1

namespace Asn1

/-! ### Object identifiers -/

/-- The first two arcs, from their merged value. -/
def mergedArcs (v : ℕ) : List ℕ :=
  if v < 40 then [0, v] else if v < 80 then [1, v - 40] else [2, v - 80]

/-- The arcs a content denotes: its groups in base 128, the first one for two arcs. -/
def OidContent (content : Bytes) (arcs : List ℕ) : Prop :=
  ∃ (g : Bytes) (gs : List Bytes), content = g ++ gs.flatten ∧ IsGroup g ∧ (∀ h ∈ gs, IsGroup h) ∧
    arcs = mergedArcs (groupValue 0 g) ++ gs.map (groupValue 0)

theorem firstArc_sound {v v' : ℕ} {s rest : Bytes} (h : firstArc v s = some (v', rest)) :
    ∃ t l, s = t ++ l :: rest ∧ (∀ b ∈ t, 128 ≤ b.toNat) ∧ l.toNat < 128 ∧
      v' = groupValue v (t ++ [l]) := by
  induction s generalizing v with
  | nil => simp [firstArc] at h
  | cons b s ih =>
      rw [firstArc] at h
      split_ifs at h with hmax hlow
      · simp only [Option.some.injEq, Prod.mk.injEq] at h
        obtain ⟨rfl, rfl⟩ := h
        exact ⟨[], b, rfl, by simp, (and_high_eq_zero_iff b).mp hlow, by rw [and_low]; rfl⟩
      · obtain ⟨t, l, rfl, ht, hl, rfl⟩ := ih h
        refine ⟨b :: t, l, rfl, ?_, hl, by rw [and_low]; rfl⟩
        rw [and_high_eq_zero_iff, not_lt] at hlow
        simpa [hlow] using ht

/-- The second loop ends between two groups, and its arcs are the values of the groups. -/
theorem arcLoop_sound {room v oidBytes : ℕ} {s : Bytes} {arcs : List ℕ}
    (h : arcLoop room v oidBytes s = some arcs) :
    (s = [] ∧ oidBytes = 0 ∧ arcs = []) ∨
      ∃ (t : Bytes) (l : UInt8) (gs : List Bytes), s = t ++ l :: gs.flatten ∧
        (∀ b ∈ t, 128 ≤ b.toNat) ∧ l.toNat < 128 ∧ (∀ g ∈ gs, IsGroup g) ∧
        arcs = groupValue v (t ++ [l]) :: gs.map (groupValue 0) ∧
        ∀ a ∈ arcs, a ≤ uint32Max := by
  induction s generalizing room v oidBytes arcs with
  | nil =>
      rw [arcLoop] at h
      split_ifs at h with hzero
      exact .inl ⟨rfl, hzero, (Option.some.inj h).symm⟩
  | cons b s ih =>
      cases room with
      | zero => simp [arcLoop] at h
      | succ room =>
          have hb := b.toNat_lt
          rw [arcLoop] at h
          split_ifs at h with hbytes hmax hlow <;> simp only [and_low] at h
          · rw [Option.map_eq_some_iff] at h
            obtain ⟨arcs', h', rfl⟩ := h
            have hle : v * 128 + b.toNat % 128 ≤ uint32Max := by
              simp only [uint32Max] at hmax ⊢
              omega
            have hl := (and_high_eq_zero_iff b).mp hlow
            rcases ih h' with ⟨rfl, -, rfl⟩ | ⟨t, l, gs, rfl, ht, hl', hgs, rfl, harcs⟩
            · exact .inr ⟨[], b, [], rfl, by simp, hl, by simp, rfl, by simpa using hle⟩
            · refine .inr ⟨[], b, (t ++ [l]) :: gs, by simp, by simp, hl, ?_, rfl, ?_⟩
              · intro g hg
                rcases List.mem_cons.mp hg with rfl | hg
                · exact ⟨t, l, rfl, ht, hl'⟩
                · exact hgs g hg
              · intro a ha
                rcases List.mem_cons.mp ha with rfl | ha
                · exact hle
                · exact harcs a ha
          · rw [and_high_eq_zero_iff, not_lt] at hlow
            rcases ih h with ⟨-, hzero, -⟩ | ⟨t, l, gs, rfl, ht, hl, hgs, rfl, harcs⟩
            · omega
            · exact .inr ⟨b :: t, l, gs, rfl, by simpa [hlow] using ht, hl, hgs, rfl, harcs⟩

/-- The arcs of an object identifier are **what its content denotes**, each below `2 ^ 32`. -/
theorem contentArcs_sound {oidCap : ℕ} {content : Bytes} {arcs : List ℕ}
    (h : contentArcs oidCap content = some arcs) :
    OidContent content arcs ∧ ∀ a ∈ arcs, a ≤ uint32Max := by
  rw [contentArcs] at h
  cases hfirst : firstArc 0 content with
  | none => simp [hfirst] at h
  | some r =>
      obtain ⟨v, s⟩ := r
      simp only [hfirst] at h
      cases hsplit : splitFirst v with
      | none => simp [hsplit] at h
      | some r =>
          obtain ⟨x, y⟩ := r
          simp only [hsplit, Option.map_eq_some_iff] at h
          obtain ⟨arcs', hloop, rfl⟩ := h
          obtain ⟨t, l, rfl, ht, hl, rfl⟩ := firstArc_sound hfirst
          have hmerged : mergedArcs (groupValue 0 (t ++ [l])) = [x, y] ∧ x ≤ 2 ∧
              y ≤ uint32Max := by
            rw [splitFirst] at hsplit
            simp only [mergedArcs]
            split_ifs at hsplit ⊢ <;> simp only [Option.some.injEq, Prod.mk.injEq] at hsplit <;>
              obtain ⟨rfl, rfl⟩ := hsplit <;> refine ⟨rfl, by omega, ?_⟩ <;>
              simp only [uint32Max] at * <;> omega
          obtain ⟨hxy, hx, hy⟩ := hmerged
          have hgroup : IsGroup (t ++ [l]) := ⟨t, l, rfl, ht, hl⟩
          have hbound : ∀ a ∈ [x, y], a ≤ uint32Max := by
            intro a ha
            rcases List.mem_cons.mp ha with rfl | ha
            · exact hx.trans (by decide)
            · rwa [List.mem_singleton.mp ha]
          rcases arcLoop_sound hloop with ⟨rfl, -, rfl⟩ |
            ⟨t', l', gs, rfl, ht', hl', hgs, rfl, harcs⟩
          · exact ⟨⟨t ++ [l], [], by simp, hgroup, by simp, by simp [hxy]⟩, hbound⟩
          · refine ⟨⟨t ++ [l], (t' ++ [l']) :: gs, by simp, hgroup, ?_, by simp [hxy]⟩, ?_⟩
            · intro g hg
              rcases List.mem_cons.mp hg with rfl | hg
              · exact ⟨t', l', rfl, ht', hl'⟩
              · exact hgs g hg
            · intro a ha
              rcases List.mem_append.mp (show a ∈ [x, y] ++ _ from ha) with ha | ha
              · exact hbound a ha
              · exact harcs a ha

theorem decodeOid_sound {oidCap : ℕ} {b rest : Bytes} {arcs : List ℕ}
    (h : decodeOid oidCap b = some (arcs, rest)) :
    ∃ content, b = tlv tagObjectId content ++ rest ∧ OidContent content arcs ∧
      (∀ a ∈ arcs, a ≤ uint32Max) ∧ content.length ≤ sizeMax := by
  rw [decodeOid] at h
  split_ifs at h
  cases htlv : decodeTlv (· = tagObjectId) (· ≠ 0) b with
  | none => simp only [htlv, reduceCtorEq] at h
  | some r =>
      obtain ⟨content, rest'⟩ := r
      simp only [htlv, Option.map_eq_some_iff, Prod.mk.injEq] at h
      obtain ⟨arcs', harcs, rfl, rfl⟩ := h
      obtain ⟨t, ht, -, hlen, rfl⟩ := decodeTlv_iff.mp htlv
      obtain ⟨hcontent, hbound⟩ := contentArcs_sound harcs
      exact ⟨content, by rw [of_decide_eq_true ht], hcontent, hbound, hlen⟩

/-! ### Numbers and elements -/

/-- The leading zero of an unsigned number is dropped. -/
theorem unsignedContent_sound {width : ℕ} {content s : Bytes}
    (h : unsignedContent width content = some s) (hlen : content.length ≤ width + 1) :
    octetValue s = octetValue content ∧ s.length ≤ width := by
  rw [unsignedContent] at h
  split_ifs at h with hzero hbit hfull
  · obtain ⟨b, t, rfl⟩ : ∃ b t, content = b :: t := by
      cases content with
      | nil => simp at hzero
      | cons b t => exact ⟨b, t, rfl⟩
    obtain rfl : b = 0 := by simpa using hzero.2
    obtain rfl : t = s := by simpa using h
    refine ⟨?_, by simpa using hlen⟩
    rw [octetValue_cons, UInt8.toNat_zero, Nat.zero_mul, Nat.zero_add]
  · obtain rfl := Option.some.inj h
    exact ⟨rfl, by omega⟩

theorem unsignedLoop_sound {width : ℕ} {content s : Bytes}
    (h : unsignedContent width content = some s) (hlen : content.length ≤ width + 1) :
    unsignedLoop (8 * width) s = octetValue content ∧ octetValue content < 2 ^ (8 * width) := by
  obtain ⟨hvalue, hs⟩ := unsignedContent_sound h hlen
  have hlt : octetValue content < 2 ^ (8 * width) := by
    calc octetValue content = octetValue s := hvalue.symm
      _ < 256 ^ s.length := octetValue_lt s
      _ ≤ 256 ^ width := Nat.pow_le_pow_right (by decide) hs
      _ = 2 ^ (8 * width) := by rw [Nat.pow_mul]
  rw [unsignedLoop_eq, hvalue, Nat.mod_eq_of_lt hlt]
  exact ⟨rfl, hlt⟩

theorem decodeUnsigned_sound {b rest : Bytes} {v : ℕ} (h : decodeUnsigned b = some (v, rest)) :
    ∃ t content, b = tlv t content ++ rest ∧ v = octetValue content ∧ v ≤ uint32Max := by
  rw [decodeUnsigned] at h
  split at h
  · cases h
  · rename_i content rest' htlv
    simp only [Option.map_eq_some_iff, Prod.mk.injEq] at h
    obtain ⟨s, hs, rfl, rfl⟩ := h
    obtain ⟨t, -, hlen, -, rfl⟩ := decodeTlv_iff.mp htlv
    simp only [ne_eq, decide_not, Bool.and_eq_true, decide_eq_true_eq] at hlen
    obtain ⟨hvalue, hlt⟩ := unsignedLoop_sound hs hlen.2
    exact ⟨t, content, rfl, hvalue, by rw [hvalue, uint32Max]; omega⟩

theorem decodeUnsigned64_sound {b rest : Bytes} {v : ℕ}
    (h : decodeUnsigned64 b = some (v, rest)) :
    ∃ t content, b = tlv t content ++ rest ∧ v = octetValue content ∧ v ≤ sizeMax := by
  rw [decodeUnsigned64] at h
  split at h
  · cases h
  · rename_i content rest' htlv
    simp only [Option.map_eq_some_iff, Prod.mk.injEq] at h
    obtain ⟨s, hs, rfl, rfl⟩ := h
    obtain ⟨t, -, hlen, -, rfl⟩ := decodeTlv_iff.mp htlv
    simp only [ne_eq, decide_not, Bool.and_eq_true, decide_eq_true_eq] at hlen
    obtain ⟨hvalue, hlt⟩ := unsignedLoop_sound hs hlen.2
    exact ⟨t, content, rfl, hvalue, by rw [hvalue, sizeMax]; omega⟩

theorem decodeIp_sound {b rest text : Bytes} (h : decodeIp b = some (text, rest)) :
    ∃ content, b = tlv tagIpAddress content ++ rest ∧ content.length = 4 ∧
      text = dotted (content.map fun b => decimal b.toNat) := by
  rw [decodeIp] at h
  split at h
  · cases h
  · rename_i content rest' htlv
    simp only [Option.some.injEq, Prod.mk.injEq] at h
    obtain ⟨rfl, rfl⟩ := h
    obtain ⟨t, ht, hlen, -, rfl⟩ := decodeTlv_iff.mp htlv
    exact ⟨content, by rw [of_decide_eq_true ht], of_decide_eq_true hlen, rfl⟩

end Asn1

namespace Snmp

/-! ### Printing -/

theorem dotted_cons (a : Bytes) (ss : List Bytes) :
    dotted (a :: ss) = a ++ ss.flatMap (0x2E :: ·) := by
  induction ss generalizing a with
  | nil => simp [dotted]
  | cons b ss ih =>
      rw [dotted, List.intercalate_cons_cons, ← dotted, ih, List.flatMap_cons]
      simp

/-- Behind other arcs, every arc gets a dot. -/
theorem printArcs_behind {cap : ℕ} {out : Bytes} (hne : out ≠ []) (hout : out.length < cap)
    {arcs : List ℕ} {r : Bytes} :
    printArcs cap out arcs = some r ↔
      r = out ++ (arcs.map decimal).flatMap (0x2E :: ·) ∧ r.length < cap := by
  induction arcs generalizing out with
  | nil =>
      simp only [printArcs, Option.some.injEq, List.map_nil, List.flatMap_nil, List.append_nil]
      constructor
      · rintro rfl
        exact ⟨rfl, hout⟩
      · rintro ⟨rfl, -⟩
        rfl
  | cons v arcs ih =>
      simp only [printArcs, if_neg hne]
      split_ifs with hfull
      · simp only [List.map_cons, List.flatMap_cons, false_iff, not_and, not_lt]
        rintro rfl
        simp only [List.length_append, List.length_cons] at hfull ⊢
        omega
      · rw [ih (by simp) (by rw [List.length_append]; omega), List.map_cons, List.flatMap_cons,
          List.append_assoc]

/-- Arcs are printed **with dots between them**, if they fit with a terminating NUL. -/
theorem printArcs_iff {cap : ℕ} (hcap : 0 < cap) {arcs : List ℕ} {r : Bytes} :
    printArcs cap [] arcs = some r ↔ r = dotted (arcs.map decimal) ∧ r.length < cap := by
  cases arcs with
  | nil =>
      simp only [printArcs, Option.some.injEq, List.map_nil, dotted, List.intercalate_nil]
      constructor
      · rintro rfl
        exact ⟨rfl, hcap⟩
      · rintro ⟨rfl, -⟩
        rfl
  | cons v arcs =>
      simp only [printArcs, if_pos, List.length_nil, Nat.sub_zero, List.nil_append]
      split_ifs with hfull
      · simp only [List.map_cons, false_iff, not_and, not_lt]
        rintro rfl
        rw [dotted_cons, List.length_append]
        omega
      · rw [printArcs_behind (decimal_ne_nil v) (by omega), List.map_cons, dotted_cons]

/-- Octets are printed with colons between them, if they fit with a terminating NUL. -/
theorem printHex_iff {cap : ℕ} {out : Bytes} (hout : out.length < cap) {s r : Bytes} :
    printHex cap out s = some r ↔
      r = out ++ [0x3A].intercalate (s.map hexByte) ∧ r.length < cap := by
  induction s generalizing out with
  | nil =>
      simp only [printHex, Option.some.injEq, List.map_nil, List.intercalate_nil, List.append_nil]
      constructor
      · rintro rfl
        exact ⟨rfl, hout⟩
      · rintro ⟨rfl, -⟩
        rfl
  | cons b s ih =>
      cases s with
      | nil =>
          simp only [printHex, if_true, List.map_cons, List.map_nil, List.intercalate_singleton]
          split_ifs with hfull
          · simp only [false_iff, not_and, not_lt]
            rintro rfl
            rw [List.length_append]
            omega
          · simp only [Option.some.injEq]
            constructor
            · rintro rfl
              exact ⟨rfl, by rw [List.length_append]; omega⟩
            · rintro ⟨rfl, -⟩
              rfl
      | cons c s =>
          rw [printHex]
          simp only [reduceCtorEq, if_false]
          split_ifs with hfull
          · simp only [List.map_cons, List.intercalate_cons_cons, false_iff, not_and, not_lt]
            rintro rfl
            simp only [List.length_append, List.length_cons, List.length_nil] at hfull ⊢
            omega
          · rw [ih (by rw [List.length_append]; omega)]
            simp only [List.map_cons, List.intercalate_cons_cons, List.append_assoc]

/-! ### Values -/

/-- The text of a value, given its tag and its content. -/
inductive ValueText : UInt8 → Bytes → Bytes → Prop
  | integer {v : ℤ} : IsInt32 v → ValueText tagInteger (integerOctets v) (signedDecimal v)
  | unsigned {tag : UInt8} {content : Bytes} : tag = tagCounter32 ∨ tag = tagGauge32 →
      octetValue content ≤ uint32Max → ValueText tag content (decimal (octetValue content))
  | timeTicks {content : Bytes} : octetValue content ≤ uint32Max →
      ValueText tagTimeTicks content (timeTicksText (octetValue content))
  | counter64 {content : Bytes} : octetValue content ≤ sizeMax →
      ValueText tagCounter64 content (decimal (octetValue content))
  | ipAddress {content : Bytes} : content.length = 4 →
      ValueText tagIpAddress content (dotted (content.map fun b => decimal b.toNat))
  | printable {tag : UInt8} {content : Bytes} : tag = tagOctetString ∨ tag = 0x44 →
      isPrintableString content = true → ValueText tag content content
  | hex {tag : UInt8} {content : Bytes} : tag = tagOctetString ∨ tag = 0x44 →
      isPrintableString content = false →
        ValueText tag content ([0x3A].intercalate (content.map hexByte))
  | objectId {content : Bytes} {arcs : List ℕ} : OidContent content arcs →
      ValueText tagObjectId content (dotted (arcs.map decimal))
  | null : ValueText tagNull [] nullText
  | exception {tag : UInt8} : tag = 0x80 ∨ tag = 0x81 ∨ tag = 0x82 →
      ValueText tag [] (exceptionText tag)

theorem decodeLast_iff {tag : UInt8} {p content : Bytes} :
    decodeLast tag p = some content ↔ content.length ≤ sizeMax ∧ p = tlv tag content := by
  have hdecode : ∀ rest, decodeTlv (· = tag) (fun _ => true) p = some (content, rest) ↔
      content.length ≤ sizeMax ∧ p = tlv tag content ++ rest := by
    intro rest
    rw [decodeTlv_iff]
    constructor
    · rintro ⟨t, ht, -, hlen, rfl⟩
      exact ⟨hlen, by rw [of_decide_eq_true ht]⟩
    · rintro ⟨hlen, rfl⟩
      exact ⟨tag, decide_eq_true rfl, rfl, hlen, rfl⟩
  have hnil := hdecode []
  rw [List.append_nil] at hnil
  rw [← hnil, decodeLast]
  constructor
  · intro h
    split at h
    · rename_i htlv
      rw [htlv, Option.some.inj h]
    · cases h
  · intro h
    rw [h]

theorem decodeEnd_eq_some {α : Type} {text : α → Bytes} {r : Option (α × Bytes)} {val : Bytes}
    (h : decodeEnd text r = some val) : ∃ v, r = some (v, []) ∧ val = text v := by
  unfold decodeEnd at h
  split at h
  · exact ⟨_, rfl, (Option.some.inj h).symm⟩
  · cases h

/-- Two elements are equal only if their tags are. -/
theorem tag_of_tlv {tag t : UInt8} {s content rest : Bytes}
    (h : tag :: s = tlv t content ++ rest) : tag = t :=
  (List.cons.inj h).1

/-- A decoded value is **one element that fills the rest of its binding**, and its text says
what the content denotes. -/
theorem decodeValue_sound {p val : Bytes} (h : decodeValue p = some val) :
    ∃ tag content, p = tlv tag content ∧ ValueText tag content val := by
  cases p with
  | nil => simp [decodeValue] at h
  | cons tag s =>
      rw [decodeValue] at h
      by_cases hint : tag = tagInteger
      · rw [if_pos hint] at h
        obtain ⟨v, hv, rfl⟩ := decodeEnd_eq_some h
        obtain ⟨hrange, heq⟩ := decodeInteger_iff.mp hv
        exact ⟨_, _, by rw [heq, List.append_nil], .integer hrange⟩
      rw [if_neg hint] at h
      by_cases huns : tag = tagCounter32 ∨ tag = tagGauge32 ∨ tag = tagTimeTicks
      · rw [if_pos huns] at h
        obtain ⟨v, hv, rfl⟩ := decodeEnd_eq_some h
        obtain ⟨t, content, heq, rfl, hmax⟩ := decodeUnsigned_sound hv
        obtain rfl := tag_of_tlv heq
        refine ⟨tag, content, by rw [heq, List.append_nil], ?_⟩
        split_ifs with htime
        · exact htime ▸ .timeTicks hmax
        · exact .unsigned (by tauto) hmax
      rw [if_neg huns] at h
      by_cases hc64 : tag = tagCounter64
      · rw [if_pos hc64] at h
        obtain ⟨v, hv, rfl⟩ := decodeEnd_eq_some h
        obtain ⟨t, content, heq, rfl, hmax⟩ := decodeUnsigned64_sound hv
        obtain rfl := tag_of_tlv heq
        exact ⟨tag, content, by rw [heq, List.append_nil], hc64 ▸ .counter64 hmax⟩
      rw [if_neg hc64] at h
      by_cases hip : tag = tagIpAddress
      · rw [if_pos hip] at h
        obtain ⟨v, hv, rfl⟩ := decodeEnd_eq_some h
        obtain ⟨content, heq, hlen, rfl⟩ := decodeIp_sound hv
        exact ⟨_, content, by rw [heq, List.append_nil], .ipAddress hlen⟩
      rw [if_neg hip] at h
      by_cases hstr : tag = tagOctetString ∨ tag = 0x44
      · rw [if_pos hstr] at h
        split at h
        · cases h
        · rename_i len content hlen
          obtain ⟨-, rfl⟩ := decodeLength_iff.mp hlen
          split_ifs at h with hend hprint hcap
          · obtain rfl := Option.some.inj h
            refine ⟨tag, content, ?_, .printable hstr hprint⟩
            rw [tlv, not_not.mp hend]
          · obtain ⟨rfl, -⟩ := (printHex_iff (by decide)).mp h
            refine ⟨tag, content, ?_, .hex hstr (by simpa using hprint)⟩
            rw [tlv, not_not.mp hend]
      rw [if_neg hstr] at h
      by_cases hoid : tag = tagObjectId
      · rw [if_pos hoid] at h
        split at h
        · rename_i arcs hdec
          obtain ⟨content, heq, harcs, -⟩ := decodeOid_sound hdec
          obtain ⟨rfl, -⟩ := (printArcs_iff (by decide)).mp h
          exact ⟨_, content, by rw [heq, List.append_nil], .objectId harcs⟩
        · cases h
      rw [if_neg hoid] at h
      by_cases hnull : tag = tagNull ∨ tag = 0x80 ∨ tag = 0x81 ∨ tag = 0x82
      · rw [if_pos hnull] at h
        split at h
        · rename_i hlen
          obtain ⟨-, rfl⟩ := decodeLength_iff.mp hlen
          obtain rfl := Option.some.inj h
          refine ⟨tag, [], rfl, ?_⟩
          split_ifs with htag
          · exact htag ▸ .null
          · exact .exception (by tauto)
        · cases h
      · rw [if_neg hnull] at h
        cases h

/-! ### Messages -/

/-- A variable binding on the wire. -/
structure WireVarBind where
  oidContent : Bytes
  tag : UInt8
  valueContent : Bytes

/-- The element of a binding: an object identifier and a value fill it. -/
def WireVarBind.bytes (w : WireVarBind) : Bytes :=
  tlv tagSequence (tlv tagObjectId w.oidContent ++ tlv w.tag w.valueContent)

/-- What an entry of the list says about a binding on the wire: its dotted object identifier,
its tag and the text of its value. -/
structure Denotes (w : WireVarBind) (v : VarBind) : Prop where
  tag : v.tag = w.tag
  oid : ∃ arcs, OidContent w.oidContent arcs ∧ (∀ a ∈ arcs, a ≤ uint32Max) ∧
    v.oid = dotted (arcs.map decimal)
  value : ValueText w.tag w.valueContent v.valueStr
  valueLen : v.valueLen = v.valueStr.length
  fits : v.oid.length < oidStrCap ∧ v.valueStr.length < valueStrCap

/-- A response on the wire. -/
structure WireMessage where
  version : ℤ
  community : Bytes
  requestId : ℤ
  errorStatus : ℤ
  errorIndex : ℤ
  varbinds : List WireVarBind

/-- The element of the list of bindings. -/
def WireMessage.varbindList (m : WireMessage) : Bytes :=
  tlv tagSequence (m.varbinds.flatMap WireVarBind.bytes)

/-- The element of the protocol data unit, which the list of bindings ends. -/
def WireMessage.pdu (m : WireMessage) : Bytes :=
  tlv 0xA2 (tlv tagInteger (integerOctets m.requestId) ++
    tlv tagInteger (integerOctets m.errorStatus) ++ tlv tagInteger (integerOctets m.errorIndex) ++
    m.varbindList)

/-- The element of the message, which the protocol data unit ends. -/
def WireMessage.bytes (m : WireMessage) : Bytes :=
  tlv tagSequence (tlv tagInteger (integerOctets m.version) ++ tlv tagOctetString m.community ++
    m.pdu)

theorem newSnmpVarBind_eq_some {tag : UInt8} {oid value : Bytes} {v : VarBind}
    (h : newSnmpVarBind tag oid value = some v) :
    v = ⟨tag, value.length, oid, value⟩ ∧ oid.length < oidStrCap ∧ value.length < valueStrCap := by
  rw [newSnmpVarBind] at h
  split_ifs at h with hcap
  rw [not_or, not_le, not_le] at hcap
  exact ⟨(Option.some.inj h).symm, hcap⟩

theorem decodeVarbind_sound {vb : Bytes} {v : VarBind} (h : decodeVarbind vb = some v) :
    ∃ w : WireVarBind, vb = tlv tagObjectId w.oidContent ++ tlv w.tag w.valueContent ∧
      Denotes w v := by
  rw [decodeVarbind] at h
  split at h
  · cases h
  · rename_i arcs p hoid
    obtain ⟨oidContent, rfl, harcs, hmax, -⟩ := decodeOid_sound hoid
    split at h
    · cases h
    · rename_i oidStr hprint
      obtain ⟨rfl, -⟩ := (printArcs_iff (by decide)).mp hprint
      split at h
      · cases h
      · rename_i tag s
        split at h
        · cases h
        · rename_i val hval
          obtain ⟨t, content, heq, htext⟩ := decodeValue_sound hval
          obtain rfl : tag = t := (List.cons.inj heq).1
          obtain ⟨rfl, hfits⟩ := newSnmpVarBind_eq_some h
          exact ⟨⟨oidContent, tag, content⟩, by rw [heq], rfl, ⟨arcs, harcs, hmax, rfl⟩, htext, rfl,
            hfits⟩

/-- The loop reads bindings to the end of the list, in the order of the wire. -/
theorem varbindLoop_sound {fuel : ℕ} {temp r : List VarBind} {p : Bytes}
    (h : varbindLoop fuel temp p = some r) :
    ∃ ws vbs, p = ws.flatMap WireVarBind.bytes ∧ r = temp ++ vbs ∧ List.Forall₂ Denotes ws vbs := by
  induction fuel generalizing temp p with
  | zero =>
      cases p with
      | nil => exact ⟨[], [], rfl, by simpa [varbindLoop] using h.symm, .nil⟩
      | cons b p => simp [varbindLoop] at h
  | succ fuel ih =>
      cases p with
      | nil => exact ⟨[], [], rfl, by simpa [varbindLoop] using h.symm, .nil⟩
      | cons b p =>
          rw [varbindLoop] at h
          split at h
          · cases h
          · rename_i vb rest htlv
            obtain ⟨t, ht, -, -, heq⟩ := decodeTlv_iff.mp htlv
            obtain rfl := of_decide_eq_true ht
            split at h
            · cases h
            · rename_i v hv
              obtain ⟨w, rfl, hw⟩ := decodeVarbind_sound hv
              obtain ⟨ws, vbs, rfl, rfl, hws⟩ := ih h
              refine ⟨w :: ws, v :: vbs, ?_, ?_, .cons hw hws⟩
              · rw [heq, List.flatMap_cons, WireVarBind.bytes]
              · rw [List.append_assoc, List.singleton_append]

theorem decodePdu_sound {pdu : Bytes} {vbs : List VarBind} (h : decodePdu pdu = some vbs) :
    ∃ requestId errorIndex ws, pdu = tlv tagInteger (integerOctets requestId) ++
        tlv tagInteger (integerOctets 0) ++ tlv tagInteger (integerOctets errorIndex) ++
        tlv tagSequence (ws.flatMap WireVarBind.bytes) ∧
      List.Forall₂ Denotes ws vbs := by
  rw [decodePdu] at h
  split at h
  · cases h
  · rename_i requestId p hreq
    obtain ⟨-, rfl⟩ := decodeInteger_iff.mp hreq
    split at h
    · cases h
    · rename_i errStatus p hstatus
      obtain ⟨-, rfl⟩ := decodeInteger_iff.mp hstatus
      split at h
      · cases h
      · rename_i errorIndex p hindex
        obtain ⟨-, rfl⟩ := decodeInteger_iff.mp hindex
        split_ifs at h with hzero
        obtain rfl : errStatus = 0 := not_not.mp hzero
        split at h
        · cases h
        · rename_i vbl hvbl
          obtain ⟨-, rfl⟩ := decodeLast_iff.mp hvbl
          obtain ⟨ws, vbs, rfl, rfl, hws⟩ := varbindLoop_sound h
          exact ⟨requestId, errorIndex, ws, by simp only [List.append_assoc], by simpa using hws⟩

theorem decodeMessage_sound {buf : Bytes} {vbs : List VarBind} (h : decodeMessage buf = some vbs) :
    ∃ m : WireMessage, buf = m.bytes ∧ m.errorStatus = 0 ∧
      List.Forall₂ Denotes m.varbinds vbs := by
  rw [decodeMessage] at h
  split at h
  · cases h
  · rename_i msg hmsg
    obtain ⟨-, rfl⟩ := decodeLast_iff.mp hmsg
    split at h
    · cases h
    · rename_i version p hversion
      obtain ⟨-, rfl⟩ := decodeInteger_iff.mp hversion
      split at h
      · cases h
      · rename_i community p hcommunity
        obtain ⟨t, ht, -, -, rfl⟩ := decodeTlv_iff.mp hcommunity
        obtain rfl := of_decide_eq_true ht
        split at h
        · cases h
        · rename_i pdu hpdu
          obtain ⟨-, rfl⟩ := decodeLast_iff.mp hpdu
          obtain ⟨requestId, errorIndex, ws, rfl, hws⟩ := decodePdu_sound h
          refine ⟨⟨version, community, requestId, 0, errorIndex, ws⟩, ?_, rfl, hws⟩
          simp only [WireMessage.bytes, WireMessage.pdu, WireMessage.varbindList,
            List.append_assoc]

/-- The list is extended by what the message says, or not at all. -/
theorem snmpAsnDecodeResponse_cases (buf : Bytes) (out : List VarBind) :
    snmpAsnDecodeResponse buf out = (false, out) ∨
      ∃ vbs, snmpAsnDecodeResponse buf out = (true, out ++ vbs) ∧ decodeMessage buf = some vbs := by
  rw [snmpAsnDecodeResponse]
  split_ifs with hshort
  · exact .inl rfl
  · cases hm : decodeMessage buf with
    | none => exact .inl rfl
    | some vbs => exact .inr ⟨vbs, rfl, rfl⟩

/-- **All or nothing, and exact**: a rejected buffer leaves the caller's list alone; an
accepted one is exactly one message with an error status of zero, whose elements fill their
parents, and appends one entry for each binding of the message. -/
theorem snmpAsnDecodeResponse_sound (buf : Bytes) (out : List VarBind) :
    ((snmpAsnDecodeResponse buf out).1 = false → (snmpAsnDecodeResponse buf out).2 = out) ∧
      ((snmpAsnDecodeResponse buf out).1 = true →
        ∃ m : WireMessage, buf = m.bytes ∧ m.errorStatus = 0 ∧
          ∃ vbs, (snmpAsnDecodeResponse buf out).2 = out ++ vbs ∧
            List.Forall₂ Denotes m.varbinds vbs) := by
  rcases snmpAsnDecodeResponse_cases buf out with h | ⟨vbs, h, hm⟩
  · rw [h]
    exact ⟨fun _ => rfl, by simp⟩
  · rw [h]
    obtain ⟨m, hbuf, hstatus, hvbs⟩ := decodeMessage_sound hm
    exact ⟨by simp, fun _ => ⟨m, hbuf, hstatus, vbs, rfl, hvbs⟩⟩

/-- A response with one binding, `1.3` with a null. -/
def sampleResponse : Bytes :=
  [0x30, 0x19, 0x02, 0x01, 0x01, 0x04, 0x00, 0xA2, 0x12, 0x02, 0x01, 0x07, 0x02, 0x01, 0x00,
    0x02, 0x01, 0x00, 0x30, 0x07, 0x30, 0x05, 0x06, 0x01, 0x2B, 0x05, 0x00]

theorem sampleResponse_sound :
    (snmpAsnDecodeResponse sampleResponse []).1 = true ∧
      ∃ m : WireMessage, sampleResponse = m.bytes ∧ m.errorStatus = 0 ∧
        ∃ vbs, (snmpAsnDecodeResponse sampleResponse []).2 = [] ++ vbs ∧
          List.Forall₂ Denotes m.varbinds vbs :=
  have haccepted : (snmpAsnDecodeResponse sampleResponse []).1 = true := rfl
  ⟨haccepted, (snmpAsnDecodeResponse_sound sampleResponse []).2 haccepted⟩

end Snmp
