import LibCore.Asn1Codec

/-!
# ASN.1: Decoding Undoes Encoding

What an encoder of `asn1.c` writes, followed by anything, is decoded to the value that was
encoded, with what followed left over. Lengths and integers are exact in both directions
(`Asn1Codec`); this module adds unsigned numbers, octet strings and object identifiers.

An arc of an object identifier is a group of octets, all but the last with the top bit set.
The encoder writes groups of at most five octets, ten for the merged first two arcs, and the
checks of the decoder against overflow never refuse such a group.

## Main results

* `contentArcs_encode`: the arcs of an encoded object identifier are read back.
* `oidLoop_spec`: the arcs the encoder reads are the decimal numbers between the dots.
* `decode_encode`: decoding undoes encoding, for all five kinds of values.
-/

open CString Radix

namespace Asn1

/-! ### Unsigned numbers -/

theorem unsignedLoop_eq (bits : ℕ) (s : Bytes) : unsignedLoop bits s = octetValue s % 2 ^ bits := by
  have hfold : ∀ acc, s.foldl (fun v b => (v * 256 + b.toNat) % 2 ^ bits) (acc % 2 ^ bits) =
      (acc * 256 ^ s.length + octetValue s) % 2 ^ bits := by
    induction s with
    | nil =>
        intro acc
        simp [octetValue]
    | cons b s ih =>
        intro acc
        have hstep : (acc % 2 ^ bits * 256 + b.toNat) % 2 ^ bits =
            (acc * 256 + b.toNat) % 2 ^ bits := by
          rw [Nat.add_mod, Nat.mul_mod, Nat.mod_mod, ← Nat.mul_mod, ← Nat.add_mod]
        rw [List.foldl_cons, hstep, ih, octetValue, octetValue, List.map_cons, value_cons,
          List.length_map, List.length_cons]
        congr 1
        ring
  have h := hfold 0
  rw [Nat.zero_mod, Nat.zero_mul, Nat.zero_add] at h
  exact h

theorem octetValue_cons (b : UInt8) (s : Bytes) :
    octetValue (b :: s) = b.toNat * 256 ^ s.length + octetValue s := by
  rw [octetValue, octetValue, List.map_cons, value_cons, List.length_map]

/-- Trimming keeps the number, an octet, and at most one zero in front of a set bit. -/
theorem trimUnsigned_spec (s : Bytes) :
    octetValue (trimUnsigned s) = octetValue s ∧ trimUnsigned s <:+ s ∧
      (s ≠ [] → trimUnsigned s ≠ []) ∧
      ∀ b t, trimUnsigned s = 0x00 :: b :: t → ¬b &&& 0x80 = 0 := by
  fun_induction trimUnsigned s with
  | case1 a b s hzero ih =>
      simp only [Bool.and_eq_true, decide_eq_true_eq] at hzero
      refine ⟨?_, ih.2.1.trans (List.suffix_cons _ _), fun _ => ih.2.2.1 (by simp), ih.2.2.2⟩
      rw [ih.1, octetValue_cons a, hzero.1]
      simp
  | case2 a b s hzero =>
      refine ⟨rfl, List.suffix_refl _, fun h => h, ?_⟩
      rintro b' t h
      simp only [List.cons.injEq] at h
      obtain ⟨rfl, rfl, rfl⟩ := h
      simpa using hzero
  | case3 s hs =>
      refine ⟨rfl, List.suffix_refl _, fun h => h, ?_⟩
      intro b t h
      exact absurd h (hs _ _ _)

/-- The content of an encoded unsigned number. -/
def unsignedOctets (v : ℕ) : Bytes :=
  trimUnsigned [0x00, UInt8.ofNat (v / 256 ^ 3), UInt8.ofNat (v / 256 ^ 2), UInt8.ofNat (v / 256),
    UInt8.ofNat v]

/-- The decoder reads the content of an encoded unsigned number. -/
theorem unsignedContent_unsignedOctets {v : ℕ} (h : v ≤ uint32Max) :
    1 ≤ (unsignedOctets v).length ∧ (unsignedOctets v).length ≤ 5 ∧
      ∃ s, unsignedContent 4 (unsignedOctets v) = some s ∧ unsignedLoop 32 s = v := by
  obtain ⟨hvalue, hsuffix, hne, hpad⟩ := trimUnsigned_spec [0x00, UInt8.ofNat (v / 256 ^ 3),
    UInt8.ofNat (v / 256 ^ 2), UInt8.ofNat (v / 256), UInt8.ofNat v]
  have hv : octetValue (unsignedOctets v) = v := by
    rw [unsignedOctets, hvalue]
    simp only [octetValue, List.map_cons, List.map_nil, value, List.foldl_cons, List.foldl_nil,
      UInt8.toNat_ofNat', uint32Max, UInt8.reduceToNat] at h ⊢
    omega
  have hmod : v % 2 ^ 32 = v := Nat.mod_eq_of_lt (by simp only [uint32Max] at h; omega)
  rw [← unsignedOctets] at hsuffix hne hpad
  have hlen := hsuffix.length_le
  have hpos := List.length_pos_iff.mpr (hne (by simp))
  refine ⟨hpos, hlen, ?_⟩
  rw [unsignedContent]
  by_cases hzero : (unsignedOctets v).length > 1 ∧ (unsignedOctets v).head? = some 0
  · rw [if_pos hzero]
    obtain ⟨b, t, ht⟩ : ∃ b t, unsignedOctets v = 0x00 :: b :: t := by
      rcases hs : unsignedOctets v with - | ⟨a, - | ⟨b, t⟩⟩
      · simp [hs] at hzero
      · simp [hs] at hzero
      · simp only [hs, List.head?_cons, Option.some.injEq] at hzero
        exact ⟨b, t, by rw [hzero.2]⟩
    have hb := hpad b t ht
    refine ⟨b :: t, by simp [ht, hb], ?_⟩
    rw [ht, octetValue_cons] at hv
    simp only [UInt8.toNat_zero, zero_mul, zero_add] at hv
    rw [unsignedLoop_eq, hv, hmod]
  · rw [if_neg hzero, if_neg]
    · exact ⟨unsignedOctets v, rfl, by rw [unsignedLoop_eq, hv, hmod]⟩
    · -- with all five octets left the first one is the zero
      intro hfive
      apply hzero
      rw [hsuffix.eq_of_length hfive]
      simp

/-! ### Arcs -/

/-- The value of a group of octets in base 128. -/
def groupValue (acc : ℕ) (s : Bytes) : ℕ := s.foldl (fun v b => v * 128 + b.toNat % 128) acc

/-- A group: all octets but the last have the top bit set. -/
def IsGroup (s : Bytes) : Prop :=
  ∃ t l, s = t ++ [l] ∧ (∀ b ∈ t, 128 ≤ b.toNat) ∧ l.toNat < 128

theorem le_groupValue (acc : ℕ) (s : Bytes) : acc ≤ groupValue acc s := by
  induction s generalizing acc with
  | nil => exact le_refl _
  | cons b s ih =>
      have := ih (acc * 128 + b.toNat % 128)
      rw [groupValue, List.foldl_cons]
      exact le_trans (by omega) this

/-- A group is read by the first loop. -/
theorem firstArc_group {t : Bytes} {l : UInt8} (ht : ∀ b ∈ t, 128 ≤ b.toNat) (hl : l.toNat < 128)
    (acc : ℕ) (hmax : groupValue acc (t ++ [l]) ≤ sizeMax) (s : Bytes) :
    firstArc acc (t ++ l :: s) = some (groupValue acc (t ++ [l]), s) := by
  induction t generalizing acc with
  | nil =>
      have hfits : ¬acc > sizeMax / 128 := by
        have := le_groupValue (acc * 128 + l.toNat % 128) []
        simp only [List.nil_append, groupValue, List.foldl_cons, List.foldl_nil, sizeMax] at *
        omega
      rw [List.nil_append, firstArc, if_neg hfits, if_pos ((and_high_eq_zero_iff l).mpr hl),
        and_low]
      rfl
  | cons b t ih =>
      have hb : ¬b &&& 0x80 = 0 := by
        rw [and_high_eq_zero_iff]
        have := ht b (by simp)
        omega
      rw [List.cons_append, groupValue, List.foldl_cons] at hmax
      have hfits : ¬acc > sizeMax / 128 := by
        have := le_groupValue (acc * 128 + b.toNat % 128) (t ++ [l])
        rw [groupValue] at this
        simp only [sizeMax] at *
        omega
      rw [List.cons_append, firstArc, if_neg hfits, if_neg hb, and_low,
        ih (fun x hx => ht x (by simp [hx])) _ hmax]
      rfl

/-- A group of at most five octets is read by the second loop. -/
theorem arcLoop_group {t : Bytes} {l : UInt8} (ht : ∀ b ∈ t, 128 ≤ b.toNat) (hl : l.toNat < 128)
    {acc oidBytes : ℕ} (hmax : groupValue acc (t ++ [l]) ≤ uint32Max)
    (hlen : oidBytes + t.length + 1 ≤ 5) (room : ℕ) (s : Bytes) :
    arcLoop (room + 1) acc oidBytes (t ++ l :: s) =
      (arcLoop room 0 0 s).map (groupValue acc (t ++ [l]) :: ·) := by
  induction t generalizing acc oidBytes with
  | nil =>
      have hfits : ¬acc > uint32Max / 128 := by
        simp only [List.nil_append, groupValue, List.foldl_cons, List.foldl_nil,
          uint32Max] at *
        omega
      rw [List.nil_append, arcLoop, if_neg (by simp at hlen; omega), if_neg hfits]
      simp only
      rw [if_pos ((and_high_eq_zero_iff l).mpr hl), and_low]
      rfl
  | cons b t ih =>
      have hb : ¬b &&& 0x80 = 0 := by
        rw [and_high_eq_zero_iff]
        have := ht b (by simp)
        omega
      rw [List.cons_append, groupValue, List.foldl_cons] at hmax
      rw [List.length_cons] at hlen
      have hfits : ¬acc > uint32Max / 128 := by
        have := le_groupValue (acc * 128 + b.toNat % 128) (t ++ [l])
        rw [groupValue] at this
        simp only [uint32Max] at *
        omega
      rw [List.cons_append, arcLoop, if_neg (by omega), if_neg hfits]
      simp only
      rw [if_neg hb, and_low, ih (fun x hx => ht x (by simp [hx])) hmax (by omega)]
      rfl

theorem groupValue_append (acc : ℕ) (s t : Bytes) :
    groupValue acc (s ++ t) = groupValue (groupValue acc s) t :=
  List.foldl_append

theorem toNat_or_high {d : ℕ} (h : d < 128) : (UInt8.ofNat d ||| 0x80).toNat = 128 + d := by
  rw [UInt8.or_comm, or_high h]

theorem groupValue_map {ds : List ℕ} (h : ∀ d ∈ ds, d < 128) :
    groupValue 0 (ds.map fun d => UInt8.ofNat d ||| 0x80) = value 128 ds := by
  rw [groupValue, List.foldl_map]
  refine List.foldl_ext _ _ _ fun acc d hd => ?_
  have := h d hd
  rw [toNat_or_high this]
  omega

/-- The encoder writes a group for an arc. -/
theorem encodeArc_spec (size v : ℕ) (hsize : 1 ≤ size) (hv : v < 128 ^ size) :
    ∃ t l, encodeArc size v = t ++ [l] ∧ (∀ b ∈ t, 128 ≤ b.toNat) ∧ l.toNat < 128 ∧
      t.length + 1 ≤ size ∧ groupValue 0 (t ++ [l]) = v := by
  rw [encodeArc]
  split_ifs with hsmall
  · refine ⟨[], UInt8.ofNat v, rfl, by simp, ?_, hsize, ?_⟩
    · rw [UInt8.toNat_ofNat']
      omega
    · simp only [groupValue, List.nil_append, List.foldl_cons, List.foldl_nil, UInt8.toNat_ofNat']
      omega
  · have hdiv : v / 128 < 128 ^ (size - 1) := by
      refine Nat.div_lt_of_lt_mul ?_
      rwa [← Nat.pow_succ', Nat.succ_eq_add_one, Nat.sub_add_cancel hsize]
    rw [digitLoop_eq (by omega) hdiv]
    have hlt : ∀ d ∈ (Nat.digits 128 (v / 128)).reverse, d < 128 := fun d hd =>
      Nat.digits_lt_base (by omega) (List.mem_reverse.mp hd)
    refine ⟨_, _, rfl, ?_, ?_, ?_, ?_⟩
    · intro b hb
      obtain ⟨d, hd, rfl⟩ := List.mem_map.mp hb
      rw [toNat_or_high (hlt d hd)]
      omega
    · rw [UInt8.toNat_ofNat']
      omega
    · rw [List.length_map, List.length_reverse]
      have := (Nat.digits_length_le_iff (by omega) (v / 128)).mpr hdiv
      omega
    · rw [groupValue_append, groupValue_map hlt, value_digits, groupValue, List.foldl_cons,
        List.foldl_nil, UInt8.toNat_ofNat']
      omega

/-- The octets of the arcs behind the first two. -/
def arcOctets (arcs : List ℕ) : Bytes := arcs.flatMap (encodeArc 5)

theorem encodeArcs_eq_some {temp e : Bytes} {arcs : List ℕ} (h : encodeArcs temp arcs = some e) :
    e = temp ++ arcOctets arcs := by
  induction arcs generalizing temp with
  | nil => simpa [encodeArcs, arcOctets] using h.symm
  | cons v arcs ih =>
      rw [encodeArcs] at h
      split_ifs at h
      rw [ih h, arcOctets, arcOctets, List.flatMap_cons, List.append_assoc]

/-- The second loop reads the arcs back. -/
theorem arcLoop_arcOctets {arcs : List ℕ} (h : ∀ v ∈ arcs, v ≤ uint32Max) {room : ℕ}
    (hroom : arcs.length ≤ room) : arcLoop room 0 0 (arcOctets arcs) = some arcs := by
  induction arcs generalizing room with
  | nil => simp [arcOctets, arcLoop]
  | cons v arcs ih =>
      obtain ⟨room, rfl⟩ : ∃ k, room = k + 1 := ⟨room - 1, by simp at hroom; omega⟩
      have hv := h v (by simp)
      obtain ⟨t, l, he, ht, hl, hlen, hvalue⟩ :=
        encodeArc_spec 5 v (by omega) (by simp only [uint32Max] at hv; omega)
      rw [arcOctets, List.flatMap_cons, he, List.append_assoc, List.singleton_append,
        arcLoop_group ht hl (by rwa [hvalue]) (by omega), hvalue, ← arcOctets,
        ih (fun v hv => h v (by simp [hv])) (by simpa using hroom)]
      rfl

/-- The first two arcs are split again. -/
theorem splitFirst_merge {x y : ℕ} (hx : x ≤ 2) (hxy : x < 2 → y < 40) (hy : y ≤ uint32Max) :
    splitFirst (x * 40 + y) = some (x, y) := by
  rw [splitFirst]
  rcases (by omega : x = 0 ∨ x = 1 ∨ x = 2) with rfl | rfl | rfl
  · have := hxy (by omega)
    rw [if_pos (by omega), Nat.zero_mul, Nat.zero_add]
  · have := hxy (by omega)
    rw [if_neg (by omega), if_pos (by omega)]
    simp
  · rw [if_neg (by omega), if_neg (by omega), if_neg (by omega)]
    simp

/-- The arcs of an encoded object identifier are **read back**. -/
theorem contentArcs_encode {x y oidCap : ℕ} {arcs : List ℕ} (hx : x ≤ 2) (hxy : x < 2 → y < 40)
    (hy : y ≤ uint32Max) (harcs : ∀ v ∈ arcs, v ≤ uint32Max) (hcap : arcs.length + 2 ≤ oidCap) :
    contentArcs oidCap (encodeArc 10 (x * 40 + y) ++ arcOctets arcs) = some (x :: y :: arcs) := by
  obtain ⟨t, l, he, ht, hl, -, hvalue⟩ := encodeArc_spec 10 (x * 40 + y) (by omega)
    (by simp only [uint32Max] at hy; omega)
  have hfirst := firstArc_group ht hl 0
    (by rw [hvalue]; simp only [uint32Max, sizeMax] at *; omega) (arcOctets arcs)
  rw [contentArcs, he, List.append_assoc, List.singleton_append, hfirst, hvalue]
  simp only
  rw [splitFirst_merge hx hxy hy]
  simp only
  rw [arcLoop_arcOctets harcs (by omega)]
  rfl

theorem length_arcOctets_le {arcs : List ℕ} (h : ∀ v ∈ arcs, v ≤ uint32Max) :
    (arcOctets arcs).length ≤ 5 * arcs.length := by
  induction arcs with
  | nil => simp [arcOctets]
  | cons v arcs ih =>
      have hv := h v (by simp)
      obtain ⟨t, l, he, -, -, hlen, -⟩ :=
        encodeArc_spec 5 v (by omega) (by simp only [uint32Max] at hv; omega)
      have ih := ih fun v hv => h v (by simp [hv])
      rw [arcOctets, List.flatMap_cons, ← arcOctets, he]
      simp only [List.length_append, List.length_cons, List.length_nil]
      omega

/-- A whole object identifier is read back. -/
theorem decodeOid_tlv {x y : ℕ} {arcs : List ℕ} (hx : x ≤ 2) (hxy : x < 2 → y < 40)
    (hy : y ≤ uint32Max) (harcs : ∀ v ∈ arcs, v ≤ uint32Max) (hlen : arcs.length + 2 ≤ 128)
    (rest : Bytes) :
    decodeOid 128 (tlv tagObjectId (encodeArc 10 (x * 40 + y) ++ arcOctets arcs) ++ rest) =
      some (x :: y :: arcs, rest) := by
  obtain ⟨t, l, he, -, -, hten, -⟩ := encodeArc_spec 10 (x * 40 + y) (by omega)
    (by simp only [uint32Max] at hy; omega)
  have harcsLen := length_arcOctets_le harcs
  have hcontent : (encodeArc 10 (x * 40 + y) ++ arcOctets arcs).length ≠ 0 ∧
      (encodeArc 10 (x * 40 + y) ++ arcOctets arcs).length ≤ sizeMax := by
    rw [he]
    simp only [List.length_append, List.length_cons, List.length_nil, sizeMax]
    omega
  have htlv : decodeTlv (· = tagObjectId) (· ≠ 0)
      (tlv tagObjectId (encodeArc 10 (x * 40 + y) ++ arcOctets arcs) ++ rest) =
        some (encodeArc 10 (x * 40 + y) ++ arcOctets arcs, rest) :=
    decodeTlv_iff.mpr ⟨tagObjectId, by simp, decide_eq_true hcontent.1, hcontent.2, rfl⟩
  rw [decodeOid, if_neg (by decide), htlv]
  simp only
  rw [contentArcs_encode hx hxy hy harcs hlen, Option.map_some]

/-! ### Dotted texts -/

/-- `strtoul` at a digit reads the digits there. -/
theorem strtoul_digit {c : UInt8} (hc : isdigit c = true) (s : Bytes) :
    strtoul (c :: s) =
      if decimalValue ((c :: s).takeWhile isdigit) > sizeMax then
        (sizeMax, true, (c :: s).dropWhile isdigit)
      else (decimalValue ((c :: s).takeWhile isdigit), false, (c :: s).dropWhile isdigit) := by
  obtain ⟨hspace, hplus, hminus⟩ := isdigit_head hc
  have hblank : (c :: s).dropWhile isspace = c :: s := by simp [hspace]
  have hdigits : (c :: s).takeWhile isdigit ≠ [] := by simp [hc]
  simp only [strtoul, hblank, List.head?_cons, Option.any_some, hplus, hminus, decide_false,
    Bool.or_self, Bool.false_eq_true, if_false, hdigits, Option.some.injEq]

/-- The numbers between the dots of a text. -/
def dottedArcs (s : Bytes) : List ℕ := (s.splitOn 0x2E).map decimalValue

theorem dot_notMem {d : Bytes} (hd : ∀ c ∈ d, isdigit c = true) : 0x2E ∉ d := by
  intro hmem
  exact absurd (hd _ hmem) (by decide)

theorem dottedArcs_digits {d : Bytes} (hd : ∀ c ∈ d, isdigit c = true) :
    dottedArcs d = [decimalValue d] := by
  rw [dottedArcs, List.splitOn_eq_singleton (dot_notMem hd), List.map_singleton]

theorem dottedArcs_cons {d : Bytes} (hd : ∀ c ∈ d, isdigit c = true) (s : Bytes) :
    dottedArcs (d ++ 0x2E :: s) = decimalValue d :: dottedArcs s := by
  rw [dottedArcs, List.splitOn_append_cons_self_of_not_mem (dot_notMem hd), List.map_cons,
    dottedArcs]

/-- The loop over a dotted text reads its numbers, all of them below `2 ^ 32`. -/
theorem oidLoop_spec {room : ℕ} {s : Bytes} {arcs : List ℕ} (hne : s ≠ [])
    (h : oidLoop room s = some arcs) :
    arcs = dottedArcs s ∧ (∀ v ∈ arcs, v ≤ uint32Max) ∧ arcs.length ≤ room := by
  induction room generalizing s arcs with
  | zero =>
      obtain ⟨c, s, rfl⟩ := List.exists_cons_of_ne_nil hne
      simp [oidLoop] at h
  | succ room ih =>
      obtain ⟨c, s, rfl⟩ := List.exists_cons_of_ne_nil hne
      rw [oidLoop] at h
      split_ifs at h with hc
      have hc : isdigit c = true := by simpa using hc
      have hdigits : ∀ x ∈ (c :: s).takeWhile isdigit, isdigit x = true := fun x hx =>
        List.mem_takeWhile_imp hx
      have hsplit := (List.takeWhile_append_dropWhile (p := isdigit) (l := c :: s)).symm
      rw [strtoul_digit hc] at h
      split_ifs at h with hbig
      · simp at h
      · simp only [Bool.false_eq_true, false_or] at h
        split_ifs at h with hmax
        cases hrest : (c :: s).dropWhile isdigit with
        | nil =>
            simp only [hrest, Option.some.injEq] at h
            rw [hrest, List.append_nil] at hsplit
            rw [← hsplit] at h
            refine ⟨?_, ?_, ?_⟩
            · rw [← h, hsplit, dottedArcs_digits hdigits, ← hsplit]
            · rw [← h, List.forall_mem_singleton]
              rw [← hsplit] at hmax
              omega
            · rw [← h]
              simp
        | cons d t =>
            simp only [hrest] at h
            split_ifs at h with hdot ht
            obtain rfl : d = 0x2E := not_not.mp hdot
            rw [Option.map_eq_some_iff] at h
            obtain ⟨arcs', h', rfl⟩ := h
            obtain ⟨heq, hle, hlen⟩ := ih ht h'
            refine ⟨?_, ?_, by simpa using hlen⟩
            · rw [hsplit, hrest, dottedArcs_cons hdigits, heq]
              congr 2
              rw [← hrest, ← hsplit]
            · intro v hv
              rcases List.mem_cons.mp hv with rfl | hv
              · omega
              · exact hle v hv

/-- An encoded object identifier is a tag, a length and the octets of its arcs. -/
theorem encodeOid_eq_some {room : ℕ} {str e : Bytes} (h : encodeOid room str = some e) :
    ∃ x y arcs, dottedArcs str = x :: y :: arcs ∧ x ≤ 2 ∧ (x < 2 → y < 40) ∧
      (∀ v ∈ y :: arcs, v ≤ uint32Max) ∧ arcs.length + 2 ≤ 128 ∧
      e = tlv tagObjectId (encodeArc 10 (x * 40 + y) ++ arcOctets arcs) ∧
      (tlv tagObjectId (encodeArc 10 (x * 40 + y) ++ arcOctets arcs)).length ≤ room := by
  rw [encodeOid] at h
  cases hloop : oidLoop 128 str with
  | none => simp [hloop] at h
  | some all =>
      have hne : str ≠ [] := by
        rintro rfl
        obtain rfl : [] = all := by simpa [oidLoop] using hloop
        simp [oidLoop] at h
      obtain ⟨heq, hle, hlen⟩ := oidLoop_spec hne hloop
      rcases all with - | ⟨x, - | ⟨y, arcs⟩⟩
      · simp [hloop] at h
      · simp [hloop] at h
      · simp only [hloop] at h
        split_ifs at h with hx hxy
        cases hArcs : encodeArcs (encodeArc 10 (x * 40 + y)) arcs with
        | none => simp [hArcs] at h
        | some temp =>
            simp only [hArcs] at h
            obtain ⟨rfl, hroom⟩ := encodeTlv_eq_some_iff.mp h
            rw [encodeArcs_eq_some hArcs] at hroom ⊢
            refine ⟨x, y, arcs, heq.symm, by omega, by omega, ?_, hlen, rfl, hroom⟩
            intro v hv
            exact hle v (List.mem_cons_of_mem _ hv)

/-- The arcs of an encoded dotted text are decoded. -/
theorem decodeOid_encodeOid {room : ℕ} {oidStr e : Bytes} (h : encodeOid room oidStr = some e)
    (rest : Bytes) : decodeOid 128 (e ++ rest) = some (dottedArcs oidStr, rest) := by
  obtain ⟨x, y, arcs, harcs, hx, hxy, hle, hlen, rfl, -⟩ := encodeOid_eq_some h
  rw [harcs]
  exact decodeOid_tlv hx hxy (hle y (by simp)) (fun v hv => hle v (by simp [hv])) hlen rest

/-- **Decoding undoes encoding**: what an encoder writes, followed by anything, is decoded to
the value that was encoded, and what followed is left. -/
theorem decode_encode (rest : Bytes) :
    (∀ length room e, length ≤ sizeMax → encodeLength room length = some e →
        decodeLength (e ++ rest) = some (length, rest)) ∧
      (∀ value room e, IsInt32 value → encodeInteger room value = some e →
        decodeInteger (e ++ rest) = some (value, rest)) ∧
      (∀ value tag room e, value ≤ uint32Max →
        tag ∈ [tagCounter32, tagGauge32, tagTimeTicks] →
        encodeUnsigned room value tag = some e →
        decodeUnsigned (e ++ rest) = some (value, rest)) ∧
      (∀ str maxLen room e, str.length ≤ sizeMax → str.length < maxLen →
        encodeString room str = some e → decodeString maxLen (e ++ rest) = some (str, rest)) ∧
      ∀ oidStr room e, encodeOid room oidStr = some e →
        decodeOid 128 (e ++ rest) = some (dottedArcs oidStr, rest) := by
  refine ⟨?_, ?_, ?_, ?_, ?_⟩
  · intro length room e hmax he
    rw [(encodeLength_eq_some_iff.mp he).1]
    exact decodeLength_iff.mpr ⟨hmax, rfl⟩
  · intro value room e hrange he
    rw [(encodeInteger_eq_some_iff.mp he).1]
    exact decodeInteger_iff.mpr ⟨hrange, rfl⟩
  · intro value tag room e hmax htag he
    obtain ⟨h1, h5, s, hs, hvalue⟩ := unsignedContent_unsignedOctets hmax
    obtain ⟨rfl, -⟩ := (encodeShort_eq_some_iff (h5.trans_lt (by omega))).mp he
    have htlv : decodeTlv (fun t => t = tagCounter32 || t = tagGauge32 || t = tagTimeTicks)
        (fun len => len ≠ 0 && len ≤ 5) (tlv tag (unsignedOctets value) ++ rest) =
          some (unsignedOctets value, rest) := by
      refine decodeTlv_iff.mpr ⟨tag, ?_, ?_, h5.trans (by decide), rfl⟩
      · simpa [or_assoc] using htag
      · have : (unsignedOctets value).length ≠ 0 := by omega
        simpa [this] using h5
    rw [decodeUnsigned, htlv]
    simp only
    rw [hs, Option.map_some, hvalue]
  · intro str maxLen room e hmax hlen he
    obtain ⟨rfl, -⟩ := encodeTlv_eq_some_iff.mp he
    have htlv : decodeTlv (· = tagOctetString) (fun _ => true) (tlv tagOctetString str ++ rest) =
        some (str, rest) := decodeTlv_iff.mpr ⟨tagOctetString, by simp, rfl, hmax, rfl⟩
    rw [decodeString, if_neg (by omega), htlv]
    simp only
    rw [List.take_of_length_le (by omega)]
  · intro oidStr room e he
    exact decodeOid_encodeOid he rest

/-- The largest arcs, a negative integer, a large counter and a length of two octets. -/
theorem decode_encode_sample :
    decodeLength ([0x82, 0x01, 0x2C] ++ [0xFF]) = some (300, [0xFF]) ∧
      decodeInteger ([0x02, 0x02, 0xFF, 0x7F] ++ [0xFF]) = some (-129, [0xFF]) ∧
      decodeUnsigned ([0x41, 0x05, 0x00, 0xFF, 0xFF, 0xFF, 0xFF] ++ [0xFF]) =
        some (4294967295, [0xFF]) ∧
      decodeString 3 ([0x04, 0x02, 0x00, 0x61] ++ [0xFF]) = some ([0x00, 0x61], [0xFF]) ∧
      decodeOid 128 ([0x06, 0x06, 0x90, 0x80, 0x80, 0x80, 0x4F, 0x03] ++ [0xFF]) =
        some (dottedArcs (ascii ['2', '.', '4', '2', '9', '4', '9', '6', '7', '2', '9', '5', '.',
          '3']), [0xFF]) := by
  obtain ⟨hlength, hinteger, hunsigned, hstring, hoid⟩ := decode_encode [0xFF]
  refine ⟨hlength 300 512 _ (by decide) ?_, hinteger (-129) 512 _ (by decide) ?_,
    hunsigned 4294967295 0x41 512 _ (by decide) (by decide) ?_,
    hstring [0x00, 0x61] 3 512 _ (by decide) (by decide) ?_, hoid _ 512 _ ?_⟩
  all_goals rfl

end Asn1
