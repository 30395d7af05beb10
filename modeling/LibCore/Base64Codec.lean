import LibCore.Base64
import LibCore.StringBuilder

/-!
# The Base64 Codecs

`base64EncodeTo` and `base64DecodeTo` of `text_encoder.c`, and `Crypto_Base64Encode` of `crypto.c`. The
encoders put three bytes into a word of 32 bits and take characters out of it; the decoder shifts six bits
at a time into a word that nothing is removed from, and writes a byte whenever eight bits have come
together. It takes the alphabet of URLs as well, skips what is in neither, and stops at the first `=`.

## Main results

* `base64Encode_eq`, `Crypto.base64Encode_eq`: what the encoders write.
* `Held.base64DecodeLoop`: what the decoder writes.
* `base64_agreement`: the encoders agree with RFC 4648, and the decoder undoes them.
-/

open CString

/-! ### The functions -/

/-- The word of the bytes `in[i]`, `in[i + 1]` and `in[i + 2]`, as far as they are there. -/
def base64Word (a : UInt8) (rest : Bytes) : UInt32 :=
  let val := a.toUInt32 <<< 16
  let val := rest[0]?.elim val fun b => val ||| b.toUInt32 <<< 8
  rest[1]?.elim val fun c => val ||| c.toUInt32

/-- The character of the six bits from `shift` on. -/
def base64Char (val : UInt32) (shift : UInt32) : UInt8 :=
  Base64.alphabet.getD ((val >>> shift) &&& 0x3F).toNat 0

/-- The four characters of a round of an encoder. -/
def base64Round (a : UInt8) (rest : Bytes) : Bytes :=
  let val := base64Word a rest
  [base64Char val 18, base64Char val 12,
    if rest.length ≥ 1 then base64Char val 6 else 0x3D,
    if rest.length ≥ 2 then base64Char val 0 else 0x3D]

namespace TextEncoder

/-- `base64EncodeTo`. -/
def base64EncodeTo (out : StringBuilder) : Bytes → StringBuilder
  | [] => out
  | a :: rest => base64EncodeTo ((base64Round a rest).foldl StringBuilder.appendChar out) (rest.drop 2)
termination_by data => data.length

/-- `base64Encode`. -/
def base64Encode (data : Bytes) : Bytes := (base64EncodeTo (StringBuilder.new 32) data).toString

/-- `b64_val`, `none` for -1. -/
def b64Val (c : UInt8) : Option UInt8 :=
  if 0x41 ≤ c && c ≤ 0x5A then some (c - 0x41)
  else if 0x61 ≤ c && c ≤ 0x7A then some (c - 0x61 + 26)
  else if 0x30 ≤ c && c ≤ 0x39 then some (c - 0x30 + 52)
  else if c = 0x2B || c = 0x2D then some 62
  else if c = 0x2F || c = 0x5F then some 63
  else none

/-- The loop of `base64DecodeTo`. -/
def base64DecodeLoop : Bytes → UInt32 → ℤ → ByteBuffer → ByteBuffer
  | [], _, _, out => out
  | c :: input, val, valb, out =>
      if c = 0x3D then out
      else
        match b64Val c with
        | none => base64DecodeLoop input val valb out
        | some dec =>
            let val := val <<< 6 ||| dec.toUInt32
            let valb := valb + 6
            if valb ≥ 0 then
              let decodedByte := ((val >>> UInt32.ofNat valb.toNat) &&& 0xFF).toUInt8
              base64DecodeLoop input val (valb - 8) (out.write [decodedByte]).1
            else base64DecodeLoop input val valb out

/-- `base64DecodeTo`. -/
def base64DecodeTo (out : ByteBuffer) (input : Bytes) : ByteBuffer := base64DecodeLoop input 0 (-8) out

/-- `base64Decode`. -/
def base64Decode (input : Bytes) : ByteBuffer := base64DecodeTo (ByteBuffer.new 30) input

end TextEncoder

namespace Crypto

/-- The loop of `Crypto_Base64Encode`. -/
def base64Loop : Bytes → Bytes
  | [] => []
  | a :: rest => base64Round a rest ++ base64Loop (rest.drop 2)
termination_by data => data.length

/-- `Crypto_Base64Encode`: `none` for NULL. -/
def base64Encode (data : Bytes) : Option Bytes := if data = [] then none else some (base64Loop data)

end Crypto

/-! ### The encoders -/

section Words

variable (a b c : UInt8)

theorem toNat_word_single : (a.toUInt32 <<< 16).toNat = Base64.triple a 0 0 := by
  have ha := a.toNat_lt
  rw [UInt32.toNat_shiftLeft, UInt8.toNat_toUInt32, Base64.triple]
  change a.toNat <<< 16 % 2 ^ 32 = _
  rw [Nat.shiftLeft_eq, Nat.mod_eq_of_lt (by omega)]
  change _ = a.toNat * 2 ^ 16 + 0 * 2 ^ 8 + 0
  omega

theorem toNat_word_pair : (a.toUInt32 <<< 16 ||| b.toUInt32 <<< 8).toNat = Base64.triple a b 0 := by
  have hb := b.toNat_lt
  have hlow : (b.toUInt32 <<< 8).toNat = b.toNat * 2 ^ 8 := by
    rw [UInt32.toNat_shiftLeft, UInt8.toNat_toUInt32]
    change b.toNat <<< 8 % 2 ^ 32 = _
    rw [Nat.shiftLeft_eq, Nat.mod_eq_of_lt (by omega)]
  rw [UInt32.toNat_or, toNat_word_single, hlow, Base64.triple, Base64.triple]
  change a.toNat * 2 ^ 16 + 0 * 2 ^ 8 + 0 ||| b.toNat * 2 ^ 8 = a.toNat * 2 ^ 16 + b.toNat * 2 ^ 8 + 0
  rw [Nat.zero_mul, Nat.add_zero, Nat.add_zero, ← Nat.shiftLeft_eq a.toNat,
    ← Nat.shiftLeft_add_eq_or_of_lt (by omega)]

theorem toNat_word_triple :
    (a.toUInt32 <<< 16 ||| b.toUInt32 <<< 8 ||| c.toUInt32).toNat = Base64.triple a b c := by
  have hc := c.toNat_lt
  have hhigh : Base64.triple a b 0 = (a.toNat * 2 ^ 8 + b.toNat) <<< 8 := by
    rw [Nat.shiftLeft_eq, Base64.triple]
    change a.toNat * 2 ^ 16 + b.toNat * 2 ^ 8 + 0 = _
    omega
  rw [UInt32.toNat_or, toNat_word_pair, hhigh, UInt8.toNat_toUInt32,
    ← Nat.shiftLeft_add_eq_or_of_lt (by omega), ← hhigh, Base64.triple, Base64.triple]
  change a.toNat * 2 ^ 16 + b.toNat * 2 ^ 8 + 0 + c.toNat = _
  omega

end Words

/-- A character is the digit of the word. -/
theorem base64Char_eq {val : UInt32} {n : ℕ} (hval : val.toNat = n) (hn : n < 2 ^ 24) :
    base64Char val 18 = Base64.char (n / 2 ^ 18) ∧ base64Char val 12 = Base64.char (n / 2 ^ 12 % 64) ∧
      base64Char val 6 = Base64.char (n / 2 ^ 6 % 64) ∧ base64Char val 0 = Base64.char (n % 64) := by
  have hdigit : ∀ k : UInt32, ((val >>> k) &&& 0x3F).toNat = n / 2 ^ (k.toNat % 32) % 64 := by
    intro k
    rw [UInt32.toNat_and, UInt32.toNat_shiftRight, hval, Nat.shiftRight_eq_div_pow]
    exact Nat.and_two_pow_sub_one_eq_mod _ 6
  have hfirst : n / 2 ^ 18 % 64 = n / 2 ^ 18 := Nat.mod_eq_of_lt (by omega)
  have hlast : n / 2 ^ (UInt32.toNat 0 % 32) % 64 = n % 64 := by
    rw [show UInt32.toNat 0 % 32 = 0 from rfl, pow_zero, Nat.div_one]
  simp only [base64Char, hdigit, hlast, Base64.char]
  refine ⟨?_, rfl, rfl, trivial⟩
  rw [← hfirst]
  rfl

/-- A round writes the next group of the encoding. -/
theorem encode_eq_round (a : UInt8) (rest : Bytes) :
    Base64.encode (a :: rest) = base64Round a rest ++ Base64.encode (rest.drop 2) := by
  match rest with
  | [] =>
      obtain ⟨h18, h12, -, -⟩ := base64Char_eq (toNat_word_single a) (Base64.triple_lt a 0 0)
      rw [Base64.encode_single, ← h18, ← h12]
      rfl
  | [b] =>
      obtain ⟨h18, h12, h6, -⟩ := base64Char_eq (toNat_word_pair a b) (Base64.triple_lt a b 0)
      rw [Base64.encode_pair, ← h18, ← h12, ← h6]
      simp [base64Round, base64Word, Base64.pad, show Base64.encode [] = [] from rfl]
  | b :: c :: rest =>
      obtain ⟨h18, h12, h6, h0⟩ := base64Char_eq (toNat_word_triple a b c) (Base64.triple_lt a b c)
      rw [Base64.encode_cons, ← h18, ← h12, ← h6, ← h0]
      rfl

theorem Crypto.base64Loop_eq (data : Bytes) : Crypto.base64Loop data = Base64.encode data := by
  fun_induction Crypto.base64Loop data with
  | case1 => rfl
  | case2 a rest ih => rw [encode_eq_round, ih]

namespace TextEncoder

open StringBuilder

theorem Holds.base64EncodeTo {out : StringBuilder} {text : Bytes} (h : out.Holds text) (data : Bytes) :
    (base64EncodeTo out data).Holds (text ++ Base64.encode data) := by
  fun_induction TextEncoder.base64EncodeTo out data generalizing text with
  | case1 out =>
      rw [show Base64.encode [] = [] from rfl, List.append_nil]
      exact h
  | case2 out a rest ih =>
      rw [encode_eq_round, ← List.append_assoc]
      exact ih (h.foldl_appendChar _)

/-- The encoder gives what fits of the encoding. -/
theorem base64Encode_eq (data : Bytes) : base64Encode data = (Base64.encode data).take maxLength := by
  have h := Holds.base64EncodeTo (holds_new (k := 5) (by omega) (rfl : 32 = 2 ^ 5)) data
  rw [List.nil_append] at h
  exact h.toString_eq (Base64.zero_notMem_encode data)

/-! ### The decoder -/

/-- The most a decoder can hold, doubling from 30. -/
def maxDecoded : ℕ := 30 * 2 ^ 19

/-- The bytes written so far. -/
structure Held (out : ByteBuffer) (bytes : Bytes) : Prop where
  data_eq : out.data = bytes
  readPos_eq : out.readPos = 0
  capacity_eq : ∃ k ≤ 19, out.capacity = 30 * 2 ^ k

theorem held_new : Held (ByteBuffer.new 30) [] := ⟨rfl, rfl, 0, by omega, rfl⟩

/-- A byte is written where it fits. -/
theorem Held.write {out : ByteBuffer} {bytes : Bytes} (h : Held out bytes)
    (hlen : bytes.length < maxDecoded) (b : UInt8) : Held (out.write [b]).1 (bytes ++ [b]) := by
  obtain ⟨k, hk, hcap⟩ := h.capacity_eq
  have hdata : out.data.length = bytes.length := by rw [h.data_eq]
  have hmax : maxDecoded = 30 * 2 ^ 19 := rfl
  by_cases hfits : out.data.length + 1 ≤ out.capacity
  · rw [ByteBuffer.write_of_fits hfits (by rw [List.length_singleton]; omega)]
    exact ⟨by rw [h.data_eq], h.readPos_eq, k, hk, hcap⟩
  · have hcompact : out.compact = out := if_pos h.readPos_eq
    have hzero : out.capacity ≠ 0 := by
      rw [hcap]
      positivity
    obtain ⟨j, hj, -, hgrow⟩ := ByteBuffer.growLoop_mul_two_pow
      (show out.data.length + 1 ≤ 30 * 2 ^ 19 by omega) (by decide) hk (show 19 < k + 25 by omega)
    have hensure : out.ensureCapacity 1 = ({ out with capacity := 30 * 2 ^ j }, true) := by
      rw [ByteBuffer.ensureCapacity, if_neg (by omega), hcompact, ite_self]
      dsimp only
      rw [if_neg hfits, if_neg hzero, hcap, hgrow]
    rw [ByteBuffer.write, if_neg (List.cons_ne_nil _ _), List.length_singleton, hensure]
    exact ⟨by rw [← h.data_eq]; rfl, h.readPos_eq, j, hj, rfl⟩

/-- The decoder knows the alphabet. -/
theorem b64Val_char {s : ℕ} (hs : s < 64) :
    b64Val (Base64.char s) = some (UInt8.ofNat s) ∧ Base64.char s ≠ 0x3D := by
  have hall : ∀ n : Fin 64, b64Val (Base64.char n.val) = some (UInt8.ofNat n.val) := by
    decide
  exact ⟨hall ⟨s, hs⟩, (Base64.char_ne hs).1⟩

/-- The word after six more bits. -/
def pushBits (val : UInt32) (s : ℕ) : UInt32 := val <<< 6 ||| (UInt8.ofNat s).toUInt32

theorem toNat_pushBits (val : UInt32) {s : ℕ} (hs : s < 64) :
    (pushBits val s).toNat = (val.toNat * 64 + s) % 2 ^ 32 := by
  have hlow : (UInt8.ofNat s).toUInt32.toNat = s := by
    rw [UInt8.toNat_toUInt32, UInt8.toNat_ofNat']
    omega
  have hhigh : (val <<< 6).toNat = (val.toNat % 2 ^ 26) <<< 6 := by
    rw [UInt32.toNat_shiftLeft]
    change val.toNat <<< 6 % 2 ^ 32 = _
    rw [Nat.shiftLeft_eq, Nat.shiftLeft_eq]
    omega
  rw [pushBits, UInt32.toNat_or, hlow, hhigh, ← Nat.shiftLeft_add_eq_or_of_lt (by omega), Nat.shiftLeft_eq]
  omega

/-- Six bits are kept for the next byte. -/
theorem base64DecodeLoop_keep (input : Bytes) (val : UInt32) (out : ByteBuffer) {s : ℕ} (hs : s < 64) :
    base64DecodeLoop (Base64.char s :: input) val (-8) out =
      base64DecodeLoop input (pushBits val s) (-2) out := by
  obtain ⟨hval, hpad⟩ := b64Val_char hs
  rw [base64DecodeLoop, if_neg hpad, hval]
  rfl

/-- With `k` bits left over, six more bits make a byte. -/
theorem base64DecodeLoop_emit (input : Bytes) (val : UInt32) (out : ByteBuffer) {s k : ℕ} (hs : s < 64)
    (hk : k ≤ 4) :
    base64DecodeLoop (Base64.char s :: input) val (k - 6) out =
      base64DecodeLoop input (pushBits val s) (k - 8)
        (out.write [UInt8.ofNat ((val.toNat * 64 + s) % 2 ^ 32 / 2 ^ k)]).1 := by
  obtain ⟨hval, hpad⟩ := b64Val_char hs
  have hbyte : ((pushBits val s >>> UInt32.ofNat k) &&& 0xFF).toUInt8 =
      UInt8.ofNat ((val.toNat * 64 + s) % 2 ^ 32 / 2 ^ k) := by
    apply UInt8.toNat_inj.mp
    rw [UInt32.toNat_toUInt8, UInt32.toNat_and, UInt32.toNat_shiftRight, toNat_pushBits val hs,
      UInt8.toNat_ofNat', UInt32.toNat_ofNat', Nat.shiftRight_eq_div_pow,
      show k % 2 ^ 32 % 32 = k by omega]
    exact congrArg (· % 2 ^ 8) (Nat.and_two_pow_sub_one_eq_mod _ 8) |>.trans (Nat.mod_mod _ _)
  have hshift : ((k : ℤ) - 6 + 6).toNat = k := by omega
  rw [base64DecodeLoop, if_neg hpad, hval]
  dsimp only
  rw [if_pos (by omega), hshift, ← pushBits, hbyte, show (k : ℤ) - 6 + 6 - 8 = k - 8 by omega]

section Triple

variable (input : Bytes) (val : UInt32) (out : ByteBuffer) (a b c : UInt8)

/-- Two groups give the first byte, and leave four bits. -/
theorem base64DecodeLoop_two : ∃ val', val'.toNat % 2 ^ 12 = Base64.triple a b c / 2 ^ 12 ∧
    base64DecodeLoop (Base64.char (Base64.triple a b c / 2 ^ 18) ::
        Base64.char (Base64.triple a b c / 2 ^ 12 % 64) :: input) val (-8) out =
      base64DecodeLoop input val' (-4) (out.write [a]).1 := by
  obtain ⟨hbytes, -, -⟩ := Base64.triple_bytes a b c
  have hlt := Base64.triple_lt a b c
  have hmod : Base64.triple a b c / 2 ^ 12 % 64 < 64 := Nat.mod_lt _ (by decide)
  have hword := toNat_pushBits val (Base64.triple_div_lt a b c)
  refine ⟨pushBits (pushBits val (Base64.triple a b c / 2 ^ 18)) (Base64.triple a b c / 2 ^ 12 % 64), ?_, ?_⟩
  · rw [toNat_pushBits _ hmod, hword]
    omega
  · have hbyte : UInt8.ofNat (((pushBits val (Base64.triple a b c / 2 ^ 18)).toNat * 64 +
        Base64.triple a b c / 2 ^ 12 % 64) % 2 ^ 32 / 2 ^ 4) = a := by
      apply UInt8.toNat_inj.mp
      rw [UInt8.toNat_ofNat', hword, ← hbytes]
      omega
    rw [base64DecodeLoop_keep _ _ _ (Base64.triple_div_lt a b c)]
    exact (base64DecodeLoop_emit input _ out hmod le_rfl).trans (by rw [hbyte]; rfl)

/-- The third gives the second byte, and leaves two bits. -/
theorem base64DecodeLoop_third (hval : val.toNat % 2 ^ 12 = Base64.triple a b c / 2 ^ 12) :
    ∃ val', val'.toNat % 2 ^ 18 = Base64.triple a b c / 2 ^ 6 ∧
      base64DecodeLoop (Base64.char (Base64.triple a b c / 2 ^ 6 % 64) :: input) val (-4) out =
        base64DecodeLoop input val' (-6) (out.write [b]).1 := by
  obtain ⟨-, hbytes, -⟩ := Base64.triple_bytes a b c
  have hlt := Base64.triple_lt a b c
  have hmod : Base64.triple a b c / 2 ^ 6 % 64 < 64 := Nat.mod_lt _ (by decide)
  refine ⟨pushBits val (Base64.triple a b c / 2 ^ 6 % 64), ?_, ?_⟩
  · rw [toNat_pushBits _ hmod]
    omega
  · have hbyte : UInt8.ofNat ((val.toNat * 64 + Base64.triple a b c / 2 ^ 6 % 64) % 2 ^ 32 / 2 ^ 2) = b := by
      apply UInt8.toNat_inj.mp
      rw [UInt8.toNat_ofNat', ← hbytes]
      omega
    exact (base64DecodeLoop_emit input val out hmod (show 2 ≤ 4 by omega)).trans (by rw [hbyte]; rfl)

/-- The fourth gives the third byte. -/
theorem base64DecodeLoop_fourth (hval : val.toNat % 2 ^ 18 = Base64.triple a b c / 2 ^ 6) :
    ∃ val', base64DecodeLoop (Base64.char (Base64.triple a b c % 64) :: input) val (-6) out =
      base64DecodeLoop input val' (-8) (out.write [c]).1 := by
  obtain ⟨-, -, hbytes⟩ := Base64.triple_bytes a b c
  have hmod : Base64.triple a b c % 64 < 64 := Nat.mod_lt _ (by decide)
  have hbyte : UInt8.ofNat ((val.toNat * 64 + Base64.triple a b c % 64) % 2 ^ 32 / 2 ^ 0) = c := by
    apply UInt8.toNat_inj.mp
    rw [UInt8.toNat_ofNat', ← hbytes]
    omega
  exact ⟨_, (base64DecodeLoop_emit input val out hmod (Nat.zero_le 4)).trans (by rw [hbyte]; rfl)⟩

/-- At `=` the decoder stops. -/
theorem base64DecodeLoop_pad (valb : ℤ) : base64DecodeLoop (Base64.pad :: input) val valb out = out := by
  rw [base64DecodeLoop, Base64.pad, if_pos rfl]

end Triple

/-- The decoder writes the bytes that were encoded. -/
theorem Held.base64DecodeLoop {out : ByteBuffer} {bytes : Bytes} (h : Held out bytes) (data : Bytes)
    (hlen : bytes.length + data.length ≤ maxDecoded) (val : UInt32) :
    Held (base64DecodeLoop (Base64.encode data) val (-8) out) (bytes ++ data) := by
  induction data using Base64.threes_induction generalizing out bytes val with
  | nil => simpa [TextEncoder.base64DecodeLoop, Base64.encode, Base64.byteGroups, Base64.groups] using h
  | single a =>
      simp only [List.length_singleton] at hlen
      obtain ⟨val', -, htwo⟩ := base64DecodeLoop_two [Base64.pad, Base64.pad] val out a 0 0
      rw [Base64.encode_single, htwo, base64DecodeLoop_pad]
      exact h.write (by omega) a
  | pair a b =>
      simp only [List.length_cons, List.length_nil] at hlen
      obtain ⟨val₁, hval₁, htwo⟩ := base64DecodeLoop_two
        [Base64.char (Base64.triple a b 0 / 2 ^ 6 % 64), Base64.pad] val out a b 0
      obtain ⟨val₂, -, hthird⟩ := base64DecodeLoop_third [Base64.pad] val₁ (out.write [a]).1 a b 0 hval₁
      rw [Base64.encode_pair, htwo, hthird, base64DecodeLoop_pad, List.append_cons]
      exact (h.write (by omega) a).write (by rw [List.length_append, List.length_singleton]; omega) b
  | cons a b c rest ih =>
      simp only [List.length_cons] at hlen
      obtain ⟨val₁, hval₁, htwo⟩ := base64DecodeLoop_two
        (Base64.char (Base64.triple a b c / 2 ^ 6 % 64) :: Base64.char (Base64.triple a b c % 64) ::
          Base64.encode rest) val out a b c
      obtain ⟨val₂, hval₂, hthird⟩ := base64DecodeLoop_third
        (Base64.char (Base64.triple a b c % 64) :: Base64.encode rest) val₁ (out.write [a]).1 a b c hval₁
      obtain ⟨val₃, hfourth⟩ := base64DecodeLoop_fourth (Base64.encode rest) val₂
        ((out.write [a]).1.write [b]).1 a b c hval₂
      rw [Base64.encode_cons, htwo, hthird, hfourth, List.append_cons, List.append_cons, List.append_cons]
      refine ih (((h.write (by omega) a).write ?_ b).write ?_ c) ?_ val₃
      all_goals
        simp only [List.length_append, List.length_singleton]
        omega

/-- **Agreement of the Base64 codecs.** Where the encoded text, with its NUL, fits the capacity that a
buffer can have, the encoder writes the text of RFC 4648, the decoder gives the bytes back, and the encoder
of `crypto.c` writes the same text, unless there is nothing to encode. -/
theorem base64_agreement (b : Bytes) (hfits : (Base64.encode b).length + 1 ≤ ByteBuffer.maxCapacity) :
    base64Encode b = Base64.encode b ∧
      (base64Decode (base64Encode b)).data = b ∧ (base64Decode (base64Encode b)).readPos = 0 ∧
      (b ≠ [] → Crypto.base64Encode b = some (base64Encode b)) := by
  have hencode : base64Encode b = Base64.encode b := by
    rw [base64Encode_eq, List.take_of_length_le (le_maxLength_iff.mpr hfits)]
  have hlen : ([] : Bytes).length + b.length ≤ maxDecoded := by
    have hmax : ByteBuffer.maxCapacity = 2 ^ 24 := rfl
    have hmost : maxDecoded = 30 * 2 ^ 19 := rfl
    rw [Base64.length_encode] at hfits
    rw [List.length_nil]
    omega
  have hheld := held_new.base64DecodeLoop b hlen 0
  rw [hencode]
  refine ⟨rfl, hheld.data_eq, hheld.readPos_eq, fun hne => ?_⟩
  rw [Crypto.base64Encode, if_neg hne, Crypto.base64Loop_eq]

theorem base64_agreement_foob : (Base64.encode (ascii ['f', 'o', 'o', 'b'])).length + 1 ≤ ByteBuffer.maxCapacity ∧
    (base64Decode (base64Encode (ascii ['f', 'o', 'o', 'b']))).data = ascii ['f', 'o', 'o', 'b'] := by
  have hfits : (Base64.encode (ascii ['f', 'o', 'o', 'b'])).length + 1 ≤ ByteBuffer.maxCapacity := by
    decide
  exact ⟨hfits, (base64_agreement _ hfits).2.1⟩

end TextEncoder
