import LibCore.Base64Codec
import LibCore.Sha1

/-!
# The WebSocket Accept Key

`Crypto_SHA1` of `crypto.c` and `ws_compute_accept_key` of `ws_protocol.c`. The hash copies the message
into a zeroed buffer of whole blocks and writes the length over its end, fills an array with the schedule
of a block, and mixes it in with disjunctions where the standard has exclusive ones. Every step is
compared with `Sha1`. The buffer can be allocated.

## Main results

* `sha1Buffer_eq`, `sha1Schedule_getD`, `sha1Round_eq`: the padding, the schedule and the rounds.
* `accept_key`: what a client finds in `Sec-WebSocket-Accept`.
-/

open CString

namespace Crypto

open Sha1 (Words)

/-! ### The code -/

/-- `SHA1_ROL`. -/
def sha1Rol (val bits : UInt32) : UInt32 := val <<< bits ||| val >>> (32 - bits)

/-- `padded_len`. -/
def sha1PaddedLen (len : UInt64) : UInt64 := (len + 1 + 8 + 63) &&& ~~~63

/-- The buffer, with the copy of the message, the marker and the length written into it. -/
def sha1Buffer (data : Bytes) : Bytes :=
  let len := UInt64.ofNat data.length
  let bitLen := len * 8
  let paddedLen := (sha1PaddedLen len).toNat
  let buf := List.replicate paddedLen 0
  let buf := data ++ buf.drop data.length
  let buf := buf.set data.length 0x80
  (List.range 8).foldl (fun buf i =>
    buf.set (paddedLen - 8 + i) (bitLen >>> UInt64.ofNat (56 - i * 8)).toUInt8) buf

/-- The first loop over `w`: a word of the block. -/
def sha1Word (block : Bytes) (i : ℕ) : UInt32 :=
  (block.getD (i * 4) 0).toUInt32 <<< 24 ||| (block.getD (i * 4 + 1) 0).toUInt32 <<< 16 |||
    (block.getD (i * 4 + 2) 0).toUInt32 <<< 8 ||| (block.getD (i * 4 + 3) 0).toUInt32

/-- One round of the second loop over `w`. -/
def sha1Extend (w : List UInt32) (i : ℕ) : List UInt32 :=
  w.set i (sha1Rol (w.getD (i - 3) 0 ^^^ w.getD (i - 8) 0 ^^^ w.getD (i - 14) 0 ^^^ w.getD (i - 16) 0) 1)

/-- The array `w` of a block. -/
def sha1Schedule (block : Bytes) : List UInt32 :=
  let w := (List.range 16).foldl (fun w i => w.set i (sha1Word block i)) (List.replicate 80 0)
  (List.range' 16 64).foldl sha1Extend w

/-- One round of the loop over `a` to `e`. -/
def sha1Round (w : List UInt32) (v : Words) (i : ℕ) : Words :=
  let (f, k) : UInt32 × UInt32 :=
    if i < 20 then ((v.b &&& v.c) ||| (~~~v.b &&& v.d), 0x5A827999)
    else if i < 40 then (v.b ^^^ v.c ^^^ v.d, 0x6ED9EBA1)
    else if i < 60 then ((v.b &&& v.c) ||| (v.b &&& v.d) ||| (v.c &&& v.d), 0x8F1BBCDC)
    else (v.b ^^^ v.c ^^^ v.d, 0xCA62C1D6)
  let temp := sha1Rol v.a 5 + f + v.e + k + w.getD i 0
  ⟨temp, v.a, sha1Rol v.b 30, v.c, v.d⟩

/-- `h0` to `h4` after a block. -/
def sha1Block (h : Words) (block : Bytes) : Words :=
  let v := (List.range 80).foldl (sha1Round (sha1Schedule block)) h
  ⟨h.a + v.a, h.b + v.b, h.c + v.c, h.d + v.d, h.e + v.e⟩

/-- `Crypto_SHA1`. -/
def sha1 (data : Bytes) : Bytes :=
  let buf := sha1Buffer data
  let paddedLen := (sha1PaddedLen (UInt64.ofNat data.length)).toNat
  let h := (List.range' 0 ((paddedLen + 63) / 64) 64).foldl (fun h offset => sha1Block h (buf.drop offset))
    ⟨0x67452301, 0xEFCDAB89, 0x98BADCFE, 0x10325476, 0xC3D2E1F0⟩
  let result := [h.a, h.b, h.c, h.d, h.e]
  (List.range 20).map fun i => (result.getD (i / 4) 0 >>> UInt32.ofNat (24 - i % 4 * 8)).toUInt8

/-! ### The padding -/

/-- The mask clears six bits. -/
theorem and_mask (x : UInt64) : x &&& ~~~(63 : UInt64) = x >>> 6 <<< 6 := by
  rw [← UInt64.toBitVec_inj]
  simp only [UInt64.toBitVec_and, UInt64.toBitVec_not, UInt64.toBitVec_shiftLeft,
    UInt64.toBitVec_shiftRight]
  have hmask : ∀ i < 64, (~~~63#64).getLsbD i = decide (6 ≤ i) := by decide
  have hsix : (UInt64.toBitVec 6 % 64 : BitVec 64).toNat = 6 := rfl
  refine BitVec.eq_of_getLsbD_eq fun i hi => ?_
  rw [BitVec.getLsbD_and, show UInt64.toBitVec 63 = 63#64 from rfl, hmask i hi]
  simp only [BitVec.shiftLeft_eq', BitVec.ushiftRight_eq', hsix, BitVec.getLsbD_shiftLeft,
    BitVec.getLsbD_ushiftRight, hi, decide_true, Bool.true_and]
  by_cases h : i < 6
  · simp [h, Nat.not_le.mpr h]
  · simp [h, Nat.le_of_not_lt h]

/-- The length of the buffer is rounded up to whole blocks. -/
theorem toNat_sha1PaddedLen {n : ℕ} (h : n < 2 ^ 61) :
    (sha1PaddedLen (UInt64.ofNat n)).toNat = (n + 72) / 64 * 64 := by
  have hlen : (UInt64.ofNat n + 1 + 8 + 63).toNat = n + 72 := by
    simp only [UInt64.toNat_add, UInt64.toNat_ofNat', UInt64.reduceToNat]
    omega
  rw [sha1PaddedLen, and_mask, UInt64.toNat_shiftLeft, UInt64.toNat_shiftRight, hlen]
  change ((n + 72) >>> 6) <<< 6 % 2 ^ 64 = _
  rw [Nat.shiftRight_eq_div_pow, Nat.shiftLeft_eq]
  omega

/-- The bytes of a length, as the loop shifts them out. -/
theorem lengthByte_eq {n i : ℕ} (h : n < 2 ^ 61) (hi : i < 8) :
    ((UInt64.ofNat n * 8) >>> UInt64.ofNat (56 - i * 8)).toUInt8 =
      UInt8.ofNat (8 * n / 2 ^ (56 - i * 8)) := by
  rw [← UInt8.toNat_inj, UInt64.toNat_toUInt8, UInt64.toNat_shiftRight, UInt64.toNat_mul,
    UInt64.toNat_ofNat',
    UInt64.toNat_ofNat', UInt8.toNat_ofNat', Nat.shiftRight_eq_div_pow]
  have hshift : (56 - i * 8) % 2 ^ 64 % 64 = 56 - i * 8 := by omega
  have hmul : n % 2 ^ 64 * UInt64.toNat 8 % 2 ^ 64 = 8 * n := by
    simp only [UInt64.reduceToNat]
    omega
  rw [hshift, hmul]

/-- Writing over the end of a buffer, byte by byte. -/
theorem foldl_set_tail (front : Bytes) (tail : List UInt8) (byte : ℕ → UInt8) :
    (List.range tail.length).foldl (fun buf i => buf.set (front.length + i) (byte i)) (front ++ tail) =
      front ++ (List.range tail.length).map byte := by
  have hstep : ∀ n ≤ tail.length,
      (List.range n).foldl (fun buf i => buf.set (front.length + i) (byte i)) (front ++ tail) =
        front ++ ((List.range n).map byte ++ tail.drop n) := by
    intro n hn
    induction n with
    | zero => simp
    | succ n ih =>
        rw [List.range_succ, List.foldl_append, ih (by omega), List.foldl_cons, List.foldl_nil,
          List.set_append_right _ _ (by omega), Nat.add_sub_cancel_left,
          List.set_append_right _ _ (by simp), List.length_map, List.length_range, Nat.sub_self,
          List.drop_eq_getElem_cons hn, List.set_cons_zero, List.map_append, List.append_assoc]
        rfl
  rw [hstep _ le_rfl, List.drop_length, List.append_nil]

/-- **The buffer** holds the padded message. -/
theorem sha1Buffer_eq {data : Bytes} (h : data.length < 2 ^ 61) :
    sha1Buffer data = data ++ 0x80 :: List.replicate ((119 - data.length % 64) % 64) 0 ++
      Sha1.lengthBytes (8 * data.length) := by
  have hlen := toNat_sha1PaddedLen h
  have hsize : (data.length + 72) / 64 * 64 =
      data.length + (1 + (119 - data.length % 64) % 64 + 8) := by omega
  -- The buffer after the copy and the marker, split before its last eight bytes.
  have hcopy : (data ++ (List.replicate ((data.length + 72) / 64 * 64) 0).drop data.length).set data.length
      0x80 = (data ++ 0x80 :: List.replicate ((119 - data.length % 64) % 64) 0) ++ List.replicate 8 0 := by
    rw [hsize, List.drop_replicate, Nat.add_sub_cancel_left, List.set_append_right _ _ le_rfl, Nat.sub_self,
      Nat.add_assoc, Nat.add_comm 1, List.replicate_succ, List.set_cons_zero, List.replicate_add,
      List.append_assoc]
    rfl
  have hend : (data.length + 72) / 64 * 64 - 8 =
      (data ++ 0x80 :: List.replicate ((119 - data.length % 64) % 64) 0).length := by
    simp only [List.length_append, List.length_cons, List.length_replicate]
    omega
  rw [sha1Buffer]
  simp only [hlen, hcopy, hend]
  have htail := foldl_set_tail (data ++ 0x80 :: List.replicate ((119 - data.length % 64) % 64) 0)
    (List.replicate 8 0) fun i => ((UInt64.ofNat data.length * 8) >>> UInt64.ofNat (56 - i * 8)).toUInt8
  rw [List.length_replicate] at htail
  rw [htail, Sha1.lengthBytes]
  refine congrArg _ (List.map_congr_left fun i hi => ?_)
  exact lengthByte_eq h (List.mem_range.mp hi)

/-! ### The schedule -/

/-- The value of a string of bits grows by a string behind it. -/
theorem value_append (xs ys : Sha1.Bits) :
    Sha1.value (xs ++ ys) = Sha1.value xs * 2 ^ ys.length + Sha1.value ys := by
  have hfold : ∀ (ys : Sha1.Bits) (n : ℕ), ys.foldl (fun n b => 2 * n + b.toNat) n =
      n * 2 ^ ys.length + ys.foldl (fun n b => 2 * n + b.toNat) 0 := by
    intro ys
    induction ys with
    | nil => simp
    | cons b ys ih =>
        intro n
        rw [List.foldl_cons, List.foldl_cons, ih, ih (2 * 0 + b.toNat), List.length_cons]
        ring
  rw [Sha1.value, List.foldl_append, hfold]
  rfl

theorem value_byteBits (b : UInt8) : Sha1.value (Sha1.byteBits b) = b.toNat := by
  revert b
  decide +kernel

/-- Four bytes as a word. -/
theorem toNat_word (a b c d : UInt8) :
    (a.toUInt32 <<< 24 ||| b.toUInt32 <<< 16 ||| c.toUInt32 <<< 8 ||| d.toUInt32).toNat =
      Sha1.value (Sha1.bits [a, b, c, d]) := by
  have ha := a.toNat_lt
  have hb := b.toNat_lt
  have hc := c.toNat_lt
  have hd := d.toNat_lt
  have hshift : ∀ (x : UInt8) (n : UInt32), n.toNat ≤ 24 →
      (x.toUInt32 <<< n).toNat = x.toNat <<< n.toNat := by
    intro x n hn
    have hx := x.toNat_lt
    rw [UInt32.toNat_shiftLeft, UInt8.toNat_toUInt32, Nat.mod_eq_of_lt (show n.toNat < 32 by omega),
      Nat.shiftLeft_eq, Nat.mod_eq_of_lt]
    calc x.toNat * 2 ^ n.toNat < 2 ^ 8 * 2 ^ 24 :=
          Nat.mul_lt_mul_of_lt_of_le hx (Nat.pow_le_pow_right (by omega) hn) (by positivity)
      _ = 2 ^ 32 := by norm_num
  have hlow : c.toNat <<< 8 ||| d.toNat = c.toNat * 2 ^ 8 + d.toNat := by
    rw [← Nat.shiftLeft_add_eq_or_of_lt (by omega), Nat.shiftLeft_eq]
  have hmid : b.toNat <<< 16 ||| (c.toNat * 2 ^ 8 + d.toNat) = b.toNat * 2 ^ 16 +
    (c.toNat * 2 ^ 8 + d.toNat) := by
    rw [← Nat.shiftLeft_add_eq_or_of_lt (by omega), Nat.shiftLeft_eq]
  have hhigh : a.toNat <<< 24 ||| (b.toNat * 2 ^ 16 + (c.toNat * 2 ^ 8 + d.toNat)) =
      a.toNat * 2 ^ 24 + (b.toNat * 2 ^ 16 + (c.toNat * 2 ^ 8 + d.toNat)) := by
    rw [← Nat.shiftLeft_add_eq_or_of_lt (by omega), Nat.shiftLeft_eq]
  simp only [UInt32.toNat_or, hshift _ 24 (by decide), hshift _ 16 (by decide), hshift _ 8 (by decide),
    UInt8.toNat_toUInt32, UInt32.reduceToNat, Nat.or_assoc, hlow, hmid, hhigh]
  simp only [Sha1.bits, List.flatMap_cons, List.flatMap_nil, value_append, value_byteBits,
    List.length_append, Sha1.length_byteBits, List.length_nil]
  simp only [Sha1.value, List.foldl_nil]
  omega

/-- The words of a block are those of the standard. -/
theorem sha1Word_eq {block : Bytes} {t : ℕ} (ht : t < 16) (hlen : 64 ≤ block.length) :
    sha1Word block t = Sha1.blockWord ((Sha1.bits block).take 512) t := by
  have hfour : (block.drop (4 * t)).take 4 = [block.getD (t * 4) 0, block.getD (t * 4 + 1) 0,
      block.getD (t * 4 + 2) 0, block.getD (t * 4 + 3) 0] := by
    rw [Nat.mul_comm 4 t, List.drop_eq_getElem_cons (by omega), List.drop_eq_getElem_cons (by omega),
      List.drop_eq_getElem_cons (by omega), List.drop_eq_getElem_cons (by omega),
      List.getD_eq_getElem _ _ (by omega), List.getD_eq_getElem _ _ (by omega),
      List.getD_eq_getElem _ _ (by omega), List.getD_eq_getElem _ _ (by omega)]
    rfl
  have hbits : (((Sha1.bits block).take 512).drop (32 * t)).take 32 =
      Sha1.bits ((block.drop (4 * t)).take 4) := by
    rw [List.drop_take, List.take_take, Nat.min_eq_left (by omega), show 32 * t = 8 * (4 * t) by omega,
      Sha1.drop_bits, show 32 = 8 * 4 by rfl, Sha1.take_bits]
  rw [Sha1.blockWord, hbits, hfour, ← UInt32.toNat_inj, sha1Word, toNat_word, UInt32.toNat_ofNat',
    Nat.mod_eq_of_lt]
  rw [← toNat_word]
  exact UInt32.toNat_lt _

/-- An array that is filled with the words of a block, one after another. -/
theorem foldl_set_words (block : Bytes) (w : List UInt32) : ∀ n ≤ w.length,
    ((List.range n).foldl (fun w i => w.set i (sha1Word block i)) w).length = w.length ∧
      ∀ t < n, ((List.range n).foldl (fun w i => w.set i (sha1Word block i)) w).getD t 0 =
        sha1Word block t := by
  intro n hn
  induction n with
  | zero => simp
  | succ n ih =>
      obtain ⟨hlen, hget⟩ := ih (by omega)
      rw [List.range_succ, List.foldl_append, List.foldl_cons, List.foldl_nil]
      refine ⟨by rw [List.length_set, hlen], fun t ht => ?_⟩
      rw [List.getD_eq_getElem?_getD, List.getElem?_set]
      split_ifs with hnt hlt
      · rw [← hnt]
        rfl
      · omega
      · rw [← List.getD_eq_getElem?_getD]
        exact hget t (by omega)

theorem schedule_of_le {m : ℕ → UInt32} {t : ℕ} (ht : 16 ≤ t) : Sha1.schedule m t =
    Sha1.rotl 1 (Sha1.schedule m (t - 3) ^^^ Sha1.schedule m (t - 8) ^^^ Sha1.schedule m (t - 14) ^^^
      Sha1.schedule m (t - 16)) := by
  rw [Sha1.schedule, dif_neg (by omega)]

/-- **The schedule**: after each round of the second loop the array holds one word more. -/
theorem sha1Schedule_getD {block : Bytes} (hlen : 64 ≤ block.length) {t : ℕ} (ht : t < 80) :
    (sha1Schedule block).getD t 0 = Sha1.schedule (Sha1.blockWord ((Sha1.bits block).take 512)) t := by
  obtain ⟨hsize, hwords⟩ := foldl_set_words block (List.replicate 80 0) 16 (by simp)
  rw [List.length_replicate] at hsize
  rw [sha1Schedule]
  generalize (List.range 16).foldl (fun w i => w.set i (sha1Word block i)) (List.replicate 80 0) = w₀
    at hsize hwords ⊢
  have hstep : ∀ n ≤ 64, ((List.range' 16 n).foldl sha1Extend w₀).length = 80 ∧
      ∀ t < 16 + n, ((List.range' 16 n).foldl sha1Extend w₀).getD t 0 =
        Sha1.schedule (Sha1.blockWord ((Sha1.bits block).take 512)) t := by
    intro n hn
    induction n with
    | zero =>
        refine ⟨hsize, fun t ht => ?_⟩
        rw [List.range'_zero, List.foldl_nil, hwords t ht, Sha1.schedule, dif_pos ht, sha1Word_eq ht hlen]
    | succ n ih =>
        obtain ⟨hsize, hget⟩ := ih (by omega)
        rw [List.range'_concat, List.foldl_append, List.foldl_cons, List.foldl_nil, Nat.one_mul, sha1Extend]
        refine ⟨by rw [List.length_set, hsize], fun t ht => ?_⟩
        rw [List.getD_eq_getElem?_getD, List.getElem?_set]
        split_ifs with hnt hlt
        · rw [← hnt, schedule_of_le (by omega), hget _ (by omega), hget _ (by omega), hget _ (by omega),
            hget _ (by omega)]
          rfl
        · omega
        · rw [← List.getD_eq_getElem?_getD]
          exact hget t (by omega)
  exact (hstep 64 le_rfl).2 t ht

/-! ### The rounds -/

/-- A bit that is chosen is not chosen the other way. -/
theorem ch_eq (x y z : UInt32) : (x &&& y) ||| (~~~x &&& z) = (x &&& y) ^^^ (~~~x &&& z) := by
  rw [← UInt32.toBitVec_inj]
  refine BitVec.eq_of_getLsbD_eq fun i hi => ?_
  simp only [UInt32.toBitVec_or, UInt32.toBitVec_and, UInt32.toBitVec_xor, UInt32.toBitVec_not,
    BitVec.getLsbD_or, BitVec.getLsbD_and, BitVec.getLsbD_xor, BitVec.getLsbD_not, hi, decide_true,
    Bool.true_and]
  cases x.toBitVec.getLsbD i <;> simp

/-- The majority of three bits. -/
theorem maj_eq (x y z : UInt32) :
    (x &&& y) ||| (x &&& z) ||| (y &&& z) = (x &&& y) ^^^ (x &&& z) ^^^ (y &&& z) := by
  rw [← UInt32.toBitVec_inj]
  refine BitVec.eq_of_getLsbD_eq fun i hi => ?_
  simp only [UInt32.toBitVec_or, UInt32.toBitVec_and, UInt32.toBitVec_xor, BitVec.getLsbD_or,
    BitVec.getLsbD_and, BitVec.getLsbD_xor]
  cases x.toBitVec.getLsbD i <;> cases y.toBitVec.getLsbD i <;> cases z.toBitVec.getLsbD i <;> rfl

/-- A round of the code is one of the standard. -/
theorem sha1Round_eq {w : List UInt32} {s : ℕ → UInt32} {t : ℕ} (hw : w.getD t 0 = s t) (v : Words) :
    sha1Round w v t = Sha1.round s t v := by
  rw [sha1Round, Sha1.round, Sha1.f, Sha1.k, hw]
  split_ifs
  · simp only [ch_eq]
    rfl
  · rfl
  · simp only [maj_eq]
    rfl
  · rfl

/-- **A block** is mixed in as the standard says. -/
theorem sha1Block_eq (h : Words) {block : Bytes} (hlen : 64 ≤ block.length) :
    sha1Block h block = Sha1.compress h ((Sha1.bits block).take 512) := by
  have hrounds : ∀ n ≤ 80, (List.range n).foldl (sha1Round (sha1Schedule block)) h =
      Sha1.rounds (Sha1.schedule (Sha1.blockWord ((Sha1.bits block).take 512))) h n := by
    intro n hn
    induction n with
    | zero => rfl
    | succ n ih =>
        rw [List.range_succ, List.foldl_append, ih (by omega), List.foldl_cons, List.foldl_nil,
          sha1Round_eq (sha1Schedule_getD hlen (by omega)), Sha1.rounds]
  rw [sha1Block, hrounds 80 le_rfl, Sha1.compress]

/-! ### The hash -/

theorem length_sha1Buffer {data : Bytes} (h : data.length < 2 ^ 61) :
    (sha1Buffer data).length = (data.length + 72) / 64 * 64 := by
  rw [sha1Buffer_eq h]
  simp only [List.length_append, List.length_cons, List.length_replicate, Sha1.lengthBytes, List.length_map,
    List.length_range]
  omega

/-- **`Crypto_SHA1` computes SHA-1** of every message the standard defines it for. -/
theorem sha1_eq {data : Bytes} (h : data.length < 2 ^ 61) :
    sha1 data = Sha1.digest (Sha1.hash (Sha1.bits data)) := by
  have hlen := length_sha1Buffer h
  have hpad : Sha1.pad (Sha1.bits data) = Sha1.bits (sha1Buffer data) := by
    rw [Sha1.pad_bytes, sha1Buffer_eq h]
  have hblocks : Sha1.blocks (Sha1.bits (sha1Buffer data)) = (List.range ((data.length + 72) / 64)).map
      fun i => (Sha1.bits ((sha1Buffer data).drop (64 * i))).take 512 := by
    rw [Sha1.blocks, Sha1.length_bits, hlen, show 8 * ((data.length + 72) / 64 * 64) / 512 =
      (data.length + 72) / 64 by omega]
    refine List.map_congr_left fun i _ => ?_
    rw [show 512 * i = 8 * (64 * i) by omega, Sha1.drop_bits]
  have hfold : ∀ n ≤ (data.length + 72) / 64, ∀ v : Words,
      (List.range' 0 n 64).foldl (fun v offset => sha1Block v ((sha1Buffer data).drop offset)) v =
        ((List.range n).map fun i => (Sha1.bits ((sha1Buffer data).drop (64 * i))).take 512).foldl
          Sha1.compress v := by
    intro n hn v
    induction n with
    | zero => rfl
    | succ n ih =>
        rw [List.range'_concat, List.foldl_append, ih (by omega), List.range_succ, List.map_append,
          List.foldl_append, List.foldl_cons, List.foldl_nil, Nat.zero_add, List.map_cons, List.map_nil,
          List.foldl_cons, List.foldl_nil, sha1Block_eq]
        rw [List.length_drop, hlen]
        omega
  rw [sha1, Sha1.hash, hpad, hblocks, toNat_sha1PaddedLen h]
  rw [show ((data.length + 72) / 64 * 64 + 63) / 64 = (data.length + 72) / 64 by omega, hfold _ le_rfl]
  rfl

/-- The hash of `abc`. -/
example : sha1 (ascii ['a', 'b', 'c']) =
    [0xA9, 0x99, 0x3E, 0x36, 0x47, 0x06, 0x81, 0x6A, 0xBA, 0x3E, 0x25, 0x71, 0x78, 0x50, 0xC2, 0x6C, 0x9C,
      0xD0, 0xD8, 0x9D] := by
  decide +kernel

end Crypto

/-! ### The accept key -/

namespace Ws

/-- `magic`. -/
def magic : Bytes :=
  ascii ['2', '5', '8', 'E', 'A', 'F', 'A', '5', '-', 'E', '9', '1', '4', '-', '4', '7', 'D', 'A', '-', '9',
    '5', 'C', 'A', '-', 'C', '5', 'A', 'B', '0', 'D', 'C', '8', '5', 'B', '1', '1']

/-- `ws_compute_accept_key`: `none` for NULL. -/
def wsComputeAcceptKey (clientKey : Bytes) : Option Bytes :=
  if (cstr clientKey).length > 128 then none
  else
    -- `snprintf` into 256 bytes.
    let combined := (cstr clientKey ++ magic).take 255
    Crypto.base64Encode (Crypto.sha1 combined)

/-- **The accept key** of every key of up to 128 bytes: the key and the magic text, hashed and
encoded. A longer key has none. -/
theorem accept_key (clientKey : Bytes) :
    (wsComputeAcceptKey clientKey =
      if (cstr clientKey).length > 128 then none
      else some (Base64.encode (Sha1.digest (Sha1.hash (Sha1.bits (cstr clientKey ++ magic)))))) ∧
    ∀ text, wsComputeAcceptKey clientKey = some text → text.length = 28 ∧ 0 ∉ text := by
  have heq : wsComputeAcceptKey clientKey =
      if (cstr clientKey).length > 128 then none
      else some (Base64.encode (Sha1.digest (Sha1.hash (Sha1.bits (cstr clientKey ++ magic))))) := by
    rw [wsComputeAcceptKey]
    split_ifs with hlong
    · rfl
    · have hfits : (cstr clientKey ++ magic).length ≤ 164 := by
        rw [List.length_append, show magic.length = 36 from rfl]
        omega
      simp only
      rw [List.take_of_length_le (by omega), Crypto.sha1_eq (by omega), Crypto.base64Encode,
        if_neg (by simp [Sha1.digest]),
        Crypto.base64Loop_eq]
  refine ⟨heq, fun text htext => ?_⟩
  rw [heq] at htext
  split_ifs at htext
  obtain rfl := Option.some.inj htext
  exact ⟨by rw [Base64.length_encode, Sha1.length_digest], Base64.zero_notMem_encode _⟩

end Ws
