import LibCore.SnmpRoundTrip

/-!
# Encodings of Object Identifiers

Whether an object identifier that `asn1_decode_oid` has accepted is encoded again by the same octets. An
arc is a group of octets in base 128. The decoder accepts a group that starts with the octet `0x80`, which
adds nothing to its value, and `asn1_encode_oid` never writes one. Lengths and integers with superfluous
octets are rejected.

## Main results

* `encodeArc_group`: a group is what the encoder writes for its value unless it is padded.
* `encode_decode_iff`: when the encoder gives the octets that were decoded.
-/

open CString Radix Snmp

namespace Asn1

/-- Whether a group starts with the octet `0x80`; `start` says whether a group starts here. -/
def padded (start : Bool) : Bytes → Bool
  | [] => false
  | b :: s => (start && b = 0x80) || padded (b.toNat < 128) s

/-- Behind a group the next one starts. -/
theorem padded_group {g : Bytes} (hg : IsGroup g) (s : Bytes) :
    padded true (g ++ s) = (g.head? = some 0x80 || padded true s) := by
  obtain ⟨t, l, rfl, ht, hl⟩ := hg
  have hbehind : ∀ start, padded start (t ++ l :: s) =
      (start && (t ++ [l]).head? = some 0x80 || padded true s) := by
    induction t with
    | nil =>
        intro start
        simp [padded, hl]
    | cons b t ih =>
        intro start
        obtain ⟨hb, ht⟩ := List.forall_mem_cons.mp ht
        have hinner : decide (b.toNat < 128) = false := by
          rw [decide_eq_false_iff_not]
          omega
        rw [List.cons_append, padded, ih ht, hinner]
        simp
  rw [List.append_assoc]
  simpa using hbehind true

/-- A group ends at its first octet without the top bit. -/
theorem group_append_inj {g g' s s' : Bytes} (hg : IsGroup g) (hg' : IsGroup g') :
    g ++ s = g' ++ s' ↔ g = g' ∧ s = s' := by
  obtain ⟨t, l, rfl, ht, hl⟩ := hg
  obtain ⟨t', l', rfl, ht', hl'⟩ := hg'
  refine ⟨fun h => ?_, fun h => by rw [h.1, h.2]⟩
  have htake : ∀ {t : Bytes} {l : UInt8} {s : Bytes}, (∀ b ∈ t, 128 ≤ b.toNat) → l.toNat < 128 →
      (t ++ l :: s).takeWhile (128 ≤ ·.toNat) = t := by
    intro t l s ht hl
    rw [List.takeWhile_append_of_pos (by simpa using ht), List.takeWhile_cons_of_neg (by simpa using hl),
      List.append_nil]
  simp only [List.append_assoc, List.singleton_append] at h
  have hsame : t = t' := by rw [← htake ht hl (s := s), h, htake ht' hl']
  subst hsame
  obtain ⟨rfl, rfl⟩ := List.cons.inj (List.append_cancel_left h)
  exact ⟨rfl, rfl⟩

/-- A top bit that is put back. -/
theorem or_high_sub {b : UInt8} (hb : 128 ≤ b.toNat) : UInt8.ofNat (b.toNat - 128) ||| 0x80 = b := by
  have hlt := b.toNat_lt
  rw [← UInt8.toNat_inj, toNat_or_high (by omega)]
  omega

/-- The encoder never writes a padded group. -/
theorem head?_encodeArc {size v : ℕ} (hsize : 1 ≤ size) (hv : v < 128 ^ size) :
    (encodeArc size v).head? ≠ some 0x80 := by
  rw [encodeArc]
  split_ifs with hsmall
  · rw [List.head?_cons, ne_eq, Option.some.injEq, ← UInt8.toNat_inj, UInt8.toNat_ofNat']
    simp
    omega
  · have hdiv : v / 128 < 128 ^ (size - 1) := by
      refine Nat.div_lt_of_lt_mul ?_
      rwa [← Nat.pow_succ', Nat.succ_eq_add_one, Nat.sub_add_cancel hsize]
    have hne : v / 128 ≠ 0 := by omega
    have hdigits : Nat.digits 128 (v / 128) ≠ [] := Nat.digits_ne_nil_iff_ne_zero.mpr hne
    have hlast := Nat.getLast_digit_ne_zero 128 hne
    have hlt := Nat.digits_lt_base (by omega : 1 < 128) (List.getLast_mem hdigits)
    rw [digitLoop_eq (by omega) hdiv, List.head?_append_of_ne_nil _ (by simpa using hdigits), List.head?_map,
      List.head?_reverse, List.getLast?_eq_some_getLast hdigits, Option.map_some, ne_eq, Option.some.injEq,
      ← UInt8.toNat_inj, toNat_or_high hlt]
    simp
    omega

/-- A group that is not padded is what the encoder writes for its value. -/
theorem encodeArc_group {size : ℕ} {g : Bytes} (hsize : 1 ≤ size) (hg : IsGroup g)
    (hv : groupValue 0 g < 128 ^ size) : encodeArc size (groupValue 0 g) = g ↔ g.head? ≠ some 0x80 := by
  refine ⟨fun h => h ▸ head?_encodeArc hsize hv, fun hhead => ?_⟩
  obtain ⟨t, l, rfl, ht, hl⟩ := hg
  cases t with
  | nil =>
      have hvalue : groupValue 0 ([] ++ [l]) = l.toNat := by
        simp [groupValue, Nat.mod_eq_of_lt hl]
      rw [hvalue, encodeArc, if_pos hl]
      simp
  | cons b t =>
      -- the digits of the octets in front of the last one
      let ds := (b :: t).map fun c => c.toNat - 128
      have hoctets : ds.map (fun d => UInt8.ofNat d ||| 0x80) = b :: t := by
        rw [List.map_map]
        conv_rhs => rw [← List.map_id (b :: t)]
        exact List.map_congr_left fun c hc => or_high_sub (ht c hc)
      have hdigits : ∀ d ∈ ds, d < 128 := by
        intro d hd
        obtain ⟨c, -, rfl⟩ := List.mem_map.mp hd
        have := c.toNat_lt
        omega
      have hfront : groupValue 0 (b :: t) = value 128 ds := by
        rw [← hoctets, groupValue_map hdigits]
      have hvalue : groupValue 0 (b :: t ++ [l]) = value 128 ds * 128 + l.toNat := by
        rw [groupValue_append, hfront]
        simp [groupValue, Nat.mod_eq_of_lt hl]
      have hlead : b.toNat - 128 ≠ 0 := by
        have hb := ht b (by simp)
        have hne : b ≠ 0x80 := by simpa using hhead
        rw [ne_eq, ← UInt8.toNat_inj] at hne
        simp at hne
        omega
      have hpos : 128 ^ t.length ≤ value 128 ds := by
        have h := @le_value_of_head 128 _ hlead (t.map fun c => c.toNat - 128)
        rwa [List.length_map] at h
      have hone : 1 ≤ 128 ^ t.length := Nat.one_le_pow _ _ (by omega)
      rw [hvalue] at hv ⊢
      have hdiv : (value 128 ds * 128 + l.toNat) / 128 = value 128 ds := by omega
      have hmod : (value 128 ds * 128 + l.toNat) % 128 = l.toNat := by omega
      have hfuel : value 128 ds < 128 ^ (size - 1) := by
        have hsucc : 128 ^ size = 128 * 128 ^ (size - 1) := by
          rw [← Nat.pow_succ', Nat.succ_eq_add_one, Nat.sub_add_cancel hsize]
        omega
      rw [encodeArc, if_neg (by omega), hdiv, hmod, digitLoop_eq (by omega) hfuel,
        digits_value (by omega) hdigits (by simpa [ds] using hlead), List.reverse_reverse, hoctets]
      simp

/-- What the encoder writes for a group in front of something else. -/
theorem encodeArc_append_iff {size : ℕ} {g : Bytes} (hsize : 1 ≤ size) (hg : IsGroup g)
    (hv : groupValue 0 g < 128 ^ size) (e s : Bytes) :
    encodeArc size (groupValue 0 g) ++ e = g ++ s ↔ g.head? ≠ some 0x80 ∧ e = s := by
  obtain ⟨t, l, he, ht, hl, -, -⟩ := encodeArc_spec size _ hsize hv
  rw [group_append_inj ⟨t, l, he, ht, hl⟩ hg, encodeArc_group hsize hg hv]

/-- What the encoder writes for the values of groups. -/
theorem arcOctets_iff {gs : List Bytes} (hgs : ∀ g ∈ gs, IsGroup g ∧ groupValue 0 g ≤ uint32Max) :
    arcOctets (gs.map (groupValue 0)) = gs.flatten ↔ padded true gs.flatten = false := by
  induction gs with
  | nil => simp [arcOctets, padded]
  | cons g gs ih =>
      obtain ⟨⟨hg, hmax⟩, hgs⟩ := List.forall_mem_cons.mp hgs
      have hv : groupValue 0 g < 128 ^ 5 := by
        simp only [uint32Max] at hmax
        omega
      rw [List.map_cons, arcOctets, List.flatMap_cons, ← arcOctets, List.flatten_cons,
        encodeArc_append_iff (by omega) hg hv, ih hgs, padded_group hg, Bool.or_eq_false_iff,
        decide_eq_false_iff_not]

theorem mergedArcs_eq {v x y : ℕ} (h : mergedArcs v = [x, y]) : x * 40 + y = v := by
  rw [mergedArcs] at h
  split_ifs at h <;> simp only [List.cons.injEq, and_true] at h <;> omega

theorem tlv_inj {tag : UInt8} {content content' : Bytes} (h : content.length ≤ sizeMax)
    (h' : content'.length ≤ sizeMax) : tlv tag content = tlv tag content' ↔ content = content' := by
  refine ⟨fun heq => ?_, fun heq => by rw [heq]⟩
  have hdec := decodeTlv_tlv tag h []
  rw [heq, decodeTlv_tlv tag h' [], Option.some.injEq, Prod.mk.injEq] at hdec
  exact hdec.1.symm

/-- **When an object identifier is encoded as it was decoded.** For every accepted element, with any octets
behind it, and whenever the encoder accepts the dotted text of its arcs: the octets it writes are those of
the element if and only if no group in it is padded. -/
theorem encode_decode_iff {b rest e : Bytes} {arcs : List ℕ} {room : ℕ}
    (hdec : decodeOid 128 b = some (arcs, rest)) (henc : encodeOid room (dotted (arcs.map decimal)) = some e) :
    ∃ content, b = tlv tagObjectId content ++ rest ∧
      (e = tlv tagObjectId content ↔ padded true content = false) := by
  obtain ⟨content, hb, ⟨g, gs, rfl, hg, hgs, harcs⟩, hmax, hlen⟩ := decodeOid_sound hdec
  refine ⟨_, hb, ?_⟩
  obtain ⟨x, y, arcs', hdotted, hx, hxy, hle, hcount, rfl, -⟩ := encodeOid_eq_some henc
  -- the text holds the arcs that were decoded
  have hne : arcs.map decimal ≠ [] := by
    intro hnil
    rw [hnil] at hdotted
    simp [dotted, dottedArcs] at hdotted
  rw [dottedArcs_dotted hne fun c hc d hd => by
    obtain ⟨v, -, rfl⟩ := List.mem_map.mp hc
    exact isdigit_of_mem_decimal hd, List.map_map] at hdotted
  have hsame : arcs = x :: y :: arcs' := by
    rw [← hdotted]
    conv_lhs => rw [← List.map_id arcs]
    exact List.map_congr_left fun v _ => (decimalValue_decimal v).symm
  obtain ⟨z, z', hmerged⟩ : ∃ z z', mergedArcs (groupValue 0 g) = [z, z'] := by
    rw [mergedArcs]
    split_ifs <;> exact ⟨_, _, rfl⟩
  rw [hsame, hmerged] at harcs
  simp only [List.cons_append, List.nil_append, List.cons.injEq] at harcs
  obtain ⟨rfl, rfl, rfl⟩ := harcs
  have hfirst := mergedArcs_eq hmerged
  have hy := hle y (by simp)
  simp only [uint32Max] at hy
  have hrest : ∀ h ∈ gs, IsGroup h ∧ groupValue 0 h ≤ uint32Max := fun h hh =>
    ⟨hgs h hh, hle _ (List.mem_cons_of_mem _ (List.mem_map.mpr ⟨h, hh, rfl⟩))⟩
  have hshort : (encodeArc 10 (groupValue 0 g) ++ arcOctets (gs.map (groupValue 0))).length ≤ sizeMax := by
    obtain ⟨t, l, he, -, -, hten, -⟩ := encodeArc_spec 10 (groupValue 0 g) (by omega) (by omega)
    have harcsLen := length_arcOctets_le fun v hv => hle v (List.mem_cons_of_mem y hv)
    rw [he]
    simp only [List.length_append, List.length_cons, List.length_nil, sizeMax]
    omega
  rw [hfirst, tlv_inj hshort hlen, encodeArc_append_iff (by omega) hg (by omega), arcOctets_iff hrest,
    padded_group hg, Bool.or_eq_false_iff, decide_eq_false_iff_not]

/-- The object identifier `1.3`. -/
theorem encode_decode_sample :
    ∃ content, ([0x06, 0x01, 0x2B, 0xFF] : Bytes) = tlv tagObjectId content ++ [0xFF] ∧
      (([0x06, 0x01, 0x2B] : Bytes) = tlv tagObjectId content ↔ padded true content = false) :=
  @encode_decode_iff [0x06, 0x01, 0x2B, 0xFF] [0xFF] [0x06, 0x01, 0x2B] [1, 3] 512 (by decide)
    (by decide)

/-- The same identifier with a padded group is accepted as well. -/
theorem padded_accepted :
    decodeOid 128 [0x06, 0x02, 0x80, 0x2B] = some ([1, 3], []) ∧
      encodeOid 512 (dotted ([1, 3].map decimal)) = some [0x06, 0x01, 0x2B] := by
  decide

end Asn1
