import LibCore.Asn1

/-!
# ASN.1: Encoders and Decoders Agree

Every encoder of `asn1.c` writes a tag, a length and a content (`tlv`), and every decoder
reads one. For lengths and integers the decoder takes exactly what the encoder writes; for
the other types it takes at least that.

## Main results

* `decodeLength_iff`, `decodeInteger_iff`: what is decoded is what would have been encoded.
* `decodeTlv_iff`: a decoder sees exactly one tag, length and content.
* `decode_exact`: both, for the functions of `asn1.c`.
-/

open CString Radix

namespace Asn1

/-! ### Bits of an octet -/

theorem and_low (b : UInt8) : (b &&& 0x7F).toNat = b.toNat % 128 := by
  rw [UInt8.toNat_and]
  exact Nat.and_two_pow_sub_one_eq_mod b.toNat 7

theorem and_high_eq_zero_iff : ∀ b : UInt8, b &&& 0x80 = 0 ↔ b.toNat < 128 := by
  decide +kernel

theorem or_high {n : ℕ} (h : n < 128) : ((0x80 : UInt8) ||| UInt8.ofNat n).toNat = 128 + n := by
  have hall : ∀ k : Fin 128, ((0x80 : UInt8) ||| UInt8.ofNat k).toNat = 128 + k := by
    decide +kernel
  exact hall ⟨n, h⟩

theorem map_toNat_ofNat {ds : List ℕ} (h : ∀ d ∈ ds, d < 256) :
    (ds.map UInt8.ofNat).map UInt8.toNat = ds := by
  rw [List.map_map]
  conv_rhs => rw [← List.map_id ds]
  refine List.map_congr_left fun d hd => ?_
  have := h d hd
  rw [Function.comp_apply, UInt8.toNat_ofNat', id]
  omega

theorem map_ofNat_toNat (s : Bytes) : (s.map UInt8.toNat).map UInt8.ofNat = s := by
  rw [List.map_map]
  conv_rhs => rw [← List.map_id s]
  refine List.map_congr_left fun b _ => ?_
  exact UInt8.ofNat_toNat

/-- The number a list of octets stands for. -/
def octetValue (s : Bytes) : ℕ := value 256 (s.map UInt8.toNat)

theorem octetValue_lt (s : Bytes) : octetValue s < 256 ^ s.length := by
  have hdigits : ∀ d ∈ s.map UInt8.toNat, d < 256 := by
    intro d hd
    obtain ⟨b, -, rfl⟩ := List.mem_map.mp hd
    exact b.toNat_lt
  have h := value_lt (by omega) hdigits
  simpa [octetValue] using h

/-- The octets of a number have its value, and the first one is not zero. -/
theorem octets_spec (width n : ℕ) (h : n < 256 ^ width) :
    octetValue (octets width n) = n ∧ (octets width n).length ≤ width ∧
      (octets width n).head? ≠ some 0 := by
  have hlt : ∀ d ∈ (Nat.digits 256 n).reverse, d < 256 := fun d hd =>
    Nat.digits_lt_base (by omega) (List.mem_reverse.mp hd)
  rw [octets, digitLoop_eq (by omega) h]
  refine ⟨?_, ?_, ?_⟩
  · rw [octetValue, map_toNat_ofNat hlt, value_digits]
  · rw [List.length_map, List.length_reverse]
    exact (Nat.digits_length_le_iff (by omega) n).mpr h
  · intro hhead
    rw [List.head?_map, List.head?_reverse, Option.map_eq_some_iff] at hhead
    obtain ⟨d, hd, hd0⟩ := hhead
    have hd256 : d < 256 := hlt d (List.mem_reverse.mpr (List.mem_of_getLast? hd))
    have hzero : d = 0 := by
      have := congrArg UInt8.toNat hd0
      rw [UInt8.toNat_ofNat'] at this
      simp at this
      omega
    have hn : n ≠ 0 := by
      rintro rfl
      simp at hd
    refine Nat.getLast_digit_ne_zero 256 hn ?_
    rw [List.getLast?_eq_some_getLast (Nat.digits_ne_nil_iff_ne_zero.mpr hn)] at hd
    rw [Option.some.inj hd, hzero]

/-- Octets without a leading zero are those of their number. -/
theorem octets_octetValue {width : ℕ} {s : Bytes} (hlen : s.length ≤ width)
    (hlead : s.head? ≠ some 0) : octets width (octetValue s) = s := by
  have hlt : octetValue s < 256 ^ width :=
    (octetValue_lt s).trans_le (Nat.pow_le_pow_right (by omega) hlen)
  have hhead : (s.map UInt8.toNat).head? ≠ some 0 := by
    cases s with
    | nil => simp
    | cons b s =>
        simp only [List.head?_cons, List.map_cons, ne_eq, Option.some.injEq] at hlead ⊢
        rwa [← UInt8.toNat_inj] at hlead
  rw [octets, digitLoop_eq (by omega) hlt, octetValue, digits_value (by omega) _ hhead,
    List.reverse_reverse, map_ofNat_toNat]
  intro d hd
  obtain ⟨b, -, rfl⟩ := List.mem_map.mp hd
  exact b.toNat_lt

/-! ### Lengths -/

/-- The octets `asn1_encode_length` writes. -/
def lengthOctets (length : ℕ) : Bytes :=
  if length < 128 then [UInt8.ofNat length]
  else (0x80 ||| UInt8.ofNat (octets 8 length).length) :: octets 8 length

theorem encodeLength_eq_some_iff {room length : ℕ} {e : Bytes} :
    encodeLength room length = some e ↔
      e = lengthOctets length ∧ (lengthOctets length).length ≤ room := by
  simp only [encodeLength, lengthOctets]
  split_ifs with h1 h2 h3
  · simp
    omega
  · simp
    constructor
    · rintro rfl
      exact ⟨rfl, by omega⟩
    · rintro ⟨rfl, -⟩
      rfl
  · simp
    omega
  · simp
    constructor
    · rintro rfl
      exact ⟨rfl, by omega⟩
    · rintro ⟨rfl, -⟩
      rfl

/-- The loop over the octets of a length, as long as there are enough of them. -/
theorem lengthLoop_eq {num len k : ℕ} {ptr : Bytes} (hnum : num ≤ ptr.length)
    (hlen : len < 256 ^ k) (hk : k + num ≤ 8) :
    lengthLoop num len ptr =
      some (len * 256 ^ num + octetValue (ptr.take num), ptr.drop num) := by
  induction num generalizing len k ptr with
  | zero => simp [lengthLoop, octetValue]
  | succ num ih =>
      cases ptr with
      | nil => simp at hnum
      | cons b ptr =>
          have hb := b.toNat_lt
          have hfits : ¬len > sizeMax / 256 := by
            have hpow : (256 : ℕ) ^ k ≤ 256 ^ 7 := Nat.pow_le_pow_right (by omega) (by omega)
            simp only [sizeMax]
            omega
          have hstep : len * 256 + b.toNat < 256 ^ (k + 1) := by
            rw [pow_succ]
            omega
          rw [lengthLoop, if_neg hfits, ih (by simpa using hnum) hstep (by omega)]
          simp only [List.take_succ_cons, List.drop_succ_cons, octetValue, List.map_cons,
            value_cons, List.length_map, List.length_take]
          rw [Nat.min_eq_left (by simpa using hnum)]
          congr 2
          ring

/-- The long form: what its octets must satisfy. -/
theorem decodeLength_long {b : UInt8} {ptr : Bytes} (hb : ¬b < 128) {v : ℕ} {rest : Bytes} :
    decodeLength (b :: ptr) = some (v, rest) ↔
      ∃ s, b.toNat = 128 + s.length ∧ 1 ≤ s.length ∧ s.length ≤ 8 ∧ s.head? ≠ some 0 ∧
        128 ≤ octetValue s ∧ v = octetValue s ∧ ptr = s ++ rest := by
  have hb' : 128 ≤ b.toNat := by simpa [UInt8.lt_iff_toNat_lt] using hb
  have hnum : (b &&& 0x7F).toNat = b.toNat - 128 := by
    rw [and_low]
    have := b.toNat_lt
    omega
  have h80 : b = 0x80 ↔ b.toNat = 128 := by
    rw [← UInt8.toNat_inj]
    rfl
  simp only [decodeLength, if_neg hb, hnum, h80]
  constructor
  · intro h
    split_ifs at h with h1 h2 h3
    push Not at h2 h3
    rw [lengthLoop_eq (k := 0) (by omega) (by simp) (by omega)] at h
    simp only [zero_mul, zero_add] at h
    split_ifs at h with h4
    simp only [Option.some.injEq, Prod.mk.injEq] at h
    have hlen : (ptr.take (b.toNat - 128)).length = b.toNat - 128 := by
      rw [List.length_take]
      omega
    refine ⟨ptr.take (b.toNat - 128), by omega, by omega, by omega, ?_, by omega, h.1.symm, ?_⟩
    · intro hhead
      rw [List.head?_take, if_neg (by omega)] at hhead
      by_cases hone : b.toNat - 128 > 1
      · exact h3 hone hhead
      · -- a single octet is at least 128
        obtain ⟨c, ptr, rfl⟩ : ∃ c t, ptr = c :: t := by
          cases ptr with
          | nil => simp at hhead
          | cons c t => exact ⟨c, t, rfl⟩
        rw [show b.toNat - 128 = 1 by omega, List.take_succ_cons, List.take_zero] at h4
        obtain rfl : c = 0 := by simpa using hhead
        simp [octetValue, value] at h4
    · rw [← h.2, List.take_append_drop]
  · rintro ⟨s, hs, h1, h8, hlead, h128, rfl, rfl⟩
    have hlen : b.toNat - 128 = s.length := by omega
    rw [hlen, if_neg (by omega), if_neg (by rw [List.length_append]; omega), if_neg]
    · rw [lengthLoop_eq (k := 0) (by simp) (by simp) (by omega)]
      simp only [zero_mul, zero_add, List.take_left, List.drop_left]
      rw [if_neg (by omega)]
    · rintro ⟨-, hhead⟩
      obtain ⟨c, t, rfl⟩ : ∃ c t, s = c :: t := by
        cases s with
        | nil => simp at h1
        | cons c t => exact ⟨c, t, rfl⟩
      exact hlead hhead

/-- **Lengths**: a length is decoded exactly from the octets that encode it. -/
theorem decodeLength_iff {b rest : Bytes} {v : ℕ} :
    decodeLength b = some (v, rest) ↔ v ≤ sizeMax ∧ b = lengthOctets v ++ rest := by
  cases b with
  | nil =>
      have hne : lengthOctets v ≠ [] := by
        rw [lengthOctets]
        split_ifs <;> simp
      simp [decodeLength, hne]
  | cons b ptr =>
      by_cases hb : b < 128
      · have hb' : b.toNat < 128 := by simpa [UInt8.lt_iff_toNat_lt] using hb
        simp only [decodeLength, if_pos hb, Option.some.injEq, Prod.mk.injEq]
        constructor
        · rintro ⟨rfl, rfl⟩
          exact ⟨by simp only [sizeMax]; omega, by simp [lengthOctets, hb']⟩
        · rintro ⟨hv, h⟩
          rw [lengthOctets] at h
          split_ifs at h with hv'
          · obtain ⟨rfl, rfl⟩ := List.cons.inj h
            refine ⟨?_, rfl⟩
            rw [UInt8.toNat_ofNat']
            omega
          · have hlen := (octets_spec 8 v (by simp only [sizeMax] at hv; omega)).2.1
            have := congrArg UInt8.toNat (List.cons.inj h).1
            rw [or_high (by omega)] at this
            omega
      · rw [decodeLength_long hb]
        constructor
        · rintro ⟨s, hs, h1, h8, hlead, h128, rfl, rfl⟩
          have hlt : octetValue s < 256 ^ 8 :=
            (octetValue_lt s).trans_le (Nat.pow_le_pow_right (by omega) h8)
          refine ⟨by simp only [sizeMax]; omega, ?_⟩
          rw [lengthOctets, if_neg (by omega), octets_octetValue h8 hlead, List.cons_append]
          congr 1
          rw [← UInt8.toNat_inj, hs, or_high (by omega)]
        · rintro ⟨hv, h⟩
          rw [lengthOctets] at h
          split_ifs at h with hv'
          · have := congrArg UInt8.toNat (List.cons.inj h).1
            rw [UInt8.toNat_ofNat'] at this
            simp only [UInt8.lt_iff_toNat_lt, UInt8.reduceToNat] at hb
            omega
          · obtain ⟨hvalue, hlen, hlead⟩ :=
              octets_spec 8 v (by simp only [sizeMax] at hv; omega)
            obtain ⟨rfl, rfl⟩ := List.cons.inj h
            refine ⟨octets 8 v, or_high (by omega), ?_, hlen, hlead, by omega, hvalue.symm, rfl⟩
            rw [Nat.one_le_iff_ne_zero]
            intro hzero
            rw [List.length_eq_zero_iff.mp hzero] at hvalue
            simp [octetValue] at hvalue
            omega

/-! ### Tag, length and content -/

/-- A tag, the length of the content and the content. -/
def tlv (tag : UInt8) (content : Bytes) : Bytes :=
  tag :: (lengthOctets content.length ++ content)

/-- A decoder sees one tag, length and content, and what follows them. -/
theorem decodeTlv_iff {isTag : UInt8 → Bool} {isLen : ℕ → Bool} {b content rest : Bytes} :
    decodeTlv isTag isLen b = some (content, rest) ↔
      ∃ t, isTag t = true ∧ isLen content.length = true ∧ content.length ≤ sizeMax ∧
        b = tlv t content ++ rest := by
  cases b with
  | nil => simp [decodeTlv, tlv]
  | cons t ptr =>
      simp only [decodeTlv]
      constructor
      · intro h
        split_ifs at h with htag
        cases hd : decodeLength ptr with
        | none => simp [hd] at h
        | some r =>
            obtain ⟨len, s⟩ := r
            simp only [hd] at h
            split_ifs at h with hlen
            push Not at hlen
            simp only [Option.some.injEq, Prod.mk.injEq] at h
            obtain ⟨hmax, rfl⟩ := decodeLength_iff.mp hd
            have hcontent : content.length = len := by
              rw [← h.1, List.length_take]
              omega
            refine ⟨t, by simpa using htag, by simpa [hcontent] using hlen.1, by omega, ?_⟩
            rw [tlv, hcontent, List.cons_append, List.append_assoc, ← h.1, ← h.2,
              List.take_append_drop]
      · rintro ⟨t', htag, hlen, hmax, hb⟩
        rw [tlv, List.cons_append, List.append_assoc] at hb
        obtain ⟨rfl, rfl⟩ := List.cons.inj hb
        rw [if_neg (by simp [htag]), decodeLength_iff.mpr ⟨hmax, rfl⟩]
        simp only
        rw [if_neg (by simp [hlen]), List.take_left, List.drop_left]

theorem encodeTlv_eq_some_iff {room : ℕ} {tag : UInt8} {content e : Bytes} :
    encodeTlv room tag content = some e ↔
      e = tlv tag content ∧ (tlv tag content).length ≤ room := by
  simp only [encodeTlv, tlv, List.length_cons, List.length_append]
  constructor
  · intro h
    split_ifs at h with h1
    cases hd : encodeLength (room - 1) content.length with
    | none => simp [hd] at h
    | some len =>
        simp only [hd] at h
        split_ifs at h with h2
        obtain ⟨rfl, hlen⟩ := encodeLength_eq_some_iff.mp hd
        exact ⟨(Option.some.inj h).symm, by omega⟩
  · rintro ⟨rfl, hroom⟩
    rw [if_neg (by omega), encodeLength_eq_some_iff.mpr ⟨rfl, by omega⟩]
    simp only
    rw [if_neg (by omega)]

theorem encodeShort_eq_some_iff {room : ℕ} {tag : UInt8} {content e : Bytes}
    (h : content.length < 128) :
    encodeShort room tag content = some e ↔
      e = tlv tag content ∧ (tlv tag content).length ≤ room := by
  simp only [encodeShort, tlv, lengthOctets, if_pos h, List.length_cons, List.length_append,
    List.length_nil]
  constructor
  · intro he
    split_ifs at he with h1 h2
    exact ⟨(Option.some.inj he).symm, by omega⟩
  · rintro ⟨rfl, hroom⟩
    rw [if_neg (by omega), if_neg (by omega)]
    rfl

/-! ### Integers -/

/-- The number a list of octets stands for in two's complement. -/
def signedValue (s : Bytes) : ℤ :=
  signedLoop (if s.head?.any fun b => b &&& 0x80 ≠ 0 then -1 else 0) s

/-- The octet that extends the sign of a list of octets. -/
def signOctet (s : Bytes) : UInt8 := if s.head?.any fun b => b &&& 0x80 ≠ 0 then 0xFF else 0x00

/-- The four octets of an `int32_t`. -/
def signedOctets (v : ℤ) : Bytes :=
  [signedOctet v 3, signedOctet v 2, signedOctet v 1, signedOctet v 0]

/-- A superfluous octet extends the sign. -/
theorem paddedInteger_iff {a b : UInt8} {s : Bytes} :
    paddedInteger (a :: b :: s) = true ↔ a = signOctet (b :: s) := by
  simp only [paddedInteger, signOctet, List.head?_cons, Option.any_some, Bool.or_eq_true,
    Bool.and_eq_true, decide_eq_true_eq]
  by_cases hb : b &&& 0x80 = 0 <;> simp [hb]

/-- Extending the sign does not change the number. -/
theorem signedValue_signOctet_cons {s : Bytes} :
    signedValue (signOctet s :: s) = signedValue s := by
  simp only [signedValue, signOctet]
  split_ifs with h1 h2
  · simp [signedLoop]
  · exact absurd rfl h2
  · rename_i h2
    exact absurd h2 (by simp)
  · simp [signedLoop]

theorem signedValue_trimSigned (s : Bytes) : signedValue (trimSigned s) = signedValue s := by
  fun_induction trimSigned s with
  | case1 a b s hpad ih =>
      rw [ih, paddedInteger_iff.mp hpad, signedValue_signOctet_cons]
  | case2 => rfl
  | case3 => rfl

theorem trimSigned_spec (s : Bytes) :
    paddedInteger (trimSigned s) = false ∧ (trimSigned s).length ≤ s.length ∧
      (s ≠ [] → trimSigned s ≠ []) := by
  fun_induction trimSigned s with
  | case1 a b s hpad ih => exact ⟨ih.1, by simp at ih ⊢; omega, fun _ => ih.2.2 (by simp)⟩
  | case2 a b s hpad => exact ⟨by simpa using hpad, le_refl _, fun h => h⟩
  | case3 s hs =>
      refine ⟨?_, le_refl _, fun h => h⟩
      cases s with
      | nil => rfl
      | cons a s =>
          cases s with
          | nil => rfl
          | cons b s => exact absurd rfl (hs a b s)

/-- Extending the sign keeps the sign. -/
theorem signOctet_replicate (s : Bytes) (k : ℕ) :
    signOctet (List.replicate k (signOctet s) ++ s) = signOctet s := by
  cases k with
  | zero => rfl
  | succ k =>
      have hsign : ∀ b : UInt8, b = 0xFF ∨ b = 0x00 → ∀ t, signOctet (b :: t) = b := by
        rintro b (rfl | rfl) t <;> rfl
      rw [List.replicate_succ, List.cons_append]
      refine hsign _ ?_ _
      rw [signOctet]
      split_ifs <;> simp

/-- Octets that are not padded are what is left of any sign extension of them. -/
theorem trimSigned_replicate {s : Bytes} (hne : s ≠ []) (hpad : paddedInteger s = false) (k : ℕ) :
    trimSigned (List.replicate k (signOctet s) ++ s) = s := by
  induction k with
  | zero =>
      rw [List.replicate_zero, List.nil_append]
      fun_cases trimSigned s with
      | case1 a b s hpad' => rw [hpad'] at hpad; exact absurd hpad (by simp)
      | case2 => rfl
      | case3 => rfl
  | succ k ih =>
      obtain ⟨b, t, ht⟩ : ∃ b t, List.replicate k (signOctet s) ++ s = b :: t :=
        List.exists_cons_of_ne_nil (by simp [hne])
      have hpadded : paddedInteger (signOctet s :: b :: t) = true := by
        rw [paddedInteger_iff, ← ht, signOctet_replicate]
      rw [List.replicate_succ, List.cons_append, ht, trimSigned, if_pos hpadded, ← ht, ih]

theorem toNat_signedOctet (v : ℤ) (i : ℕ) :
    ((signedOctet v i).toNat : ℤ) = v / 256 ^ i % 256 := by
  rw [signedOctet, UInt8.toNat_ofNat']
  omega

theorem head_high_iff (a : UInt8) (s : Bytes) :
    ((a :: s).head?.any fun b => b &&& 0x80 ≠ 0) = true ↔ 128 ≤ a.toNat := by
  have := and_high_eq_zero_iff a
  simp only [List.head?_cons, Option.any_some, decide_eq_true_eq]
  rw [ne_eq, this, not_lt]

/-- The octets of a number stand for it. -/
theorem signedValue_signedOctets {v : ℤ} (h : IsInt32 v) : signedValue (signedOctets v) = v := by
  have h3 := toNat_signedOctet v 3
  have h2 := toNat_signedOctet v 2
  have h1 := toNat_signedOctet v 1
  have h0 := toNat_signedOctet v 0
  obtain ⟨hmin, hmax⟩ := h
  simp only [signedValue, signedOctets, head_high_iff, signedLoop, List.foldl_cons,
    List.foldl_nil]
  split_ifs <;> omega

theorem signedValue_replicate (s : Bytes) (k : ℕ) :
    signedValue (List.replicate k (signOctet s) ++ s) = signedValue s := by
  induction k with
  | zero => rfl
  | succ k ih =>
      have hstep := signedValue_signOctet_cons (s := List.replicate k (signOctet s) ++ s)
      rw [signOctet_replicate] at hstep
      rw [List.replicate_succ, List.cons_append, hstep, ih]

/-- Four octets are those of the number they stand for. -/
theorem signedOctets_signedValue {s : Bytes} (hlen : s.length = 4) :
    signedOctets (signedValue s) = s ∧ IsInt32 (signedValue s) := by
  have heq : ∀ (v : ℤ) (i : ℕ) (b : UInt8), (b.toNat : ℤ) = v / 256 ^ i % 256 →
      signedOctet v i = b := by
    intro v i b hb
    rw [← UInt8.toNat_inj]
    exact_mod_cast (toNat_signedOctet v i).trans hb.symm
  obtain ⟨a, b, c, d, rfl⟩ := List.length_eq_four.mp hlen
  have ha := a.toNat_lt
  have hb := b.toNat_lt
  have hc := c.toNat_lt
  have hd := d.toNat_lt
  obtain ⟨v, hv⟩ : ∃ v, v = signedValue [a, b, c, d] := ⟨_, rfl⟩
  rw [← hv]
  simp only [signedValue, head_high_iff, signedLoop, List.foldl_cons, List.foldl_nil] at hv
  have hrange : IsInt32 v := by
    rw [IsInt32]
    split_ifs at hv <;> omega
  refine ⟨?_, hrange⟩
  rw [signedOctets, heq v 3 a (by split_ifs at hv <;> omega),
    heq v 2 b (by split_ifs at hv <;> omega), heq v 1 c (by split_ifs at hv <;> omega),
    heq v 0 d (by split_ifs at hv <;> omega)]

/-- The content of an encoded integer. -/
def integerOctets (v : ℤ) : Bytes := trimSigned (signedOctets v)

theorem length_integerOctets (v : ℤ) :
    1 ≤ (integerOctets v).length ∧ (integerOctets v).length ≤ 4 := by
  obtain ⟨-, hlen, hne⟩ := trimSigned_spec (signedOctets v)
  exact ⟨List.length_pos_iff.mpr (hne (by simp [signedOctets])), hlen⟩

theorem encodeInteger_eq_some_iff {room : ℕ} {v : ℤ} {e : Bytes} :
    encodeInteger room v = some e ↔
      e = tlv tagInteger (integerOctets v) ∧ (tlv tagInteger (integerOctets v)).length ≤ room :=
  encodeShort_eq_some_iff ((length_integerOctets v).2.trans_lt (by omega))

/-- The content of a decoded integer is that of the encoded one. -/
theorem integerOctets_signedValue {s : Bytes} (hne : s ≠ []) (hlen : s.length ≤ 4)
    (hpad : paddedInteger s = false) :
    integerOctets (signedValue s) = s ∧ IsInt32 (signedValue s) := by
  have hfour : (List.replicate (4 - s.length) (signOctet s) ++ s).length = 4 := by
    rw [List.length_append, List.length_replicate]
    omega
  obtain ⟨hoctets, hrange⟩ := signedOctets_signedValue hfour
  rw [signedValue_replicate] at hoctets hrange
  exact ⟨by rw [integerOctets, hoctets, trimSigned_replicate hne hpad], hrange⟩

/-- **Integers**: an integer is decoded exactly from the octets that encode it. -/
theorem decodeInteger_iff {b rest : Bytes} {v : ℤ} :
    decodeInteger b = some (v, rest) ↔
      IsInt32 v ∧ b = tlv tagInteger (integerOctets v) ++ rest := by
  have hcontent : ∀ content rest', decodeTlv (· = tagInteger) (fun len => len ≠ 0 && len ≤ 4) b =
      some (content, rest') → decodeInteger b = if paddedInteger content then none
        else if IsInt32 (signedValue content) then some (signedValue content, rest') else none := by
    intro content rest' h
    simp only [decodeInteger, h]
    rfl
  constructor
  · intro h
    cases htlv : decodeTlv (· = tagInteger) (fun len => len ≠ 0 && len ≤ 4) b with
    | none => simp only [decodeInteger, htlv, reduceCtorEq] at h
    | some r =>
        obtain ⟨content, rest'⟩ := r
        rw [hcontent content rest' htlv] at h
        split_ifs at h with hpad hrange
        simp only [Option.some.injEq, Prod.mk.injEq] at h
        obtain ⟨rfl, rfl⟩ := h
        obtain ⟨t, ht, hlen, -, rfl⟩ := decodeTlv_iff.mp htlv
        simp only [Bool.and_eq_true, decide_eq_true_eq] at ht hlen
        have hne : content ≠ [] := by
          rintro rfl
          exact hlen.1 rfl
        refine ⟨hrange, ?_⟩
        rw [(integerOctets_signedValue hne hlen.2 (by simpa using hpad)).1, ht]
  · rintro ⟨hv, rfl⟩
    obtain ⟨h1, h4⟩ := length_integerOctets v
    have hvalue : signedValue (integerOctets v) = v := by
      rw [integerOctets, signedValue_trimSigned, signedValue_signedOctets hv]
    have hlen : (integerOctets v).length ≠ 0 := by omega
    rw [hcontent (integerOctets v) rest (decodeTlv_iff.mpr ⟨tagInteger, by simp,
      by simpa [hlen] using h4, h4.trans (by decide), rfl⟩), hvalue, if_pos hv, integerOctets,
      (trimSigned_spec _).1]
    rfl

/-- **Exactness**: a length or an integer is decoded from a byte string exactly when the
string starts with what the encoder writes for it; every other string is rejected. -/
theorem decode_exact (b rest : Bytes) :
    (∀ v, decodeLength b = some (v, rest) ↔
        v ≤ sizeMax ∧ ∃ room e, encodeLength room v = some e ∧ b = e ++ rest) ∧
      ∀ v, decodeInteger b = some (v, rest) ↔
        IsInt32 v ∧ ∃ room e, encodeInteger room v = some e ∧ b = e ++ rest := by
  constructor
  · intro v
    rw [decodeLength_iff]
    refine and_congr_right fun _ => ⟨?_, ?_⟩
    · rintro rfl
      exact ⟨_, _, encodeLength_eq_some_iff.mpr ⟨rfl, le_refl _⟩, rfl⟩
    · rintro ⟨room, e, he, rfl⟩
      rw [(encodeLength_eq_some_iff.mp he).1]
  · intro v
    rw [decodeInteger_iff]
    refine and_congr_right fun _ => ⟨?_, ?_⟩
    · rintro rfl
      exact ⟨_, _, encodeInteger_eq_some_iff.mpr ⟨rfl, le_refl _⟩, rfl⟩
    · rintro ⟨room, e, he, rfl⟩
      rw [(encodeInteger_eq_some_iff.mp he).1]

end Asn1
