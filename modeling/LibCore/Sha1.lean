import Mathlib.Data.List.Basic
import Mathlib.Data.Nat.Bitwise
import Mathlib.Tactic

/-!
# SHA-1

The hash of FIPS 180-4, on strings of bits: the message is padded with a one, zeros and its length to
blocks of 512 bits, every block is a schedule of eighty words, and eighty rounds mix each schedule into
the chaining value.

## Main definitions

* `pad`: the padded message.
* `schedule`, `rounds`, `compress`: a block.
* `hash`: the chaining value after the last block.

## Main results

* `zeros_spec`: the padding is the shortest that fills the last block.
* `pad_bytes`: the padding of a message of bytes, byte by byte.
-/

namespace Sha1

/-- A string of bits, the most significant one first. -/
abbrev Bits := List Bool

/-- The bits of a byte. -/
def byteBits (b : UInt8) : Bits := [7, 6, 5, 4, 3, 2, 1, 0].map b.toNat.testBit

/-- The bits of a string of bytes. -/
def bits (bytes : List UInt8) : Bits := bytes.flatMap byteBits

/-- The number that a string of bits is. -/
def value (bs : Bits) : ℕ := bs.foldl (fun n b => 2 * n + b.toNat) 0

/-- The 64 bits of a length. -/
def lengthBits (n : ℕ) : Bits := (List.range 64).map fun i => n.testBit (63 - i)

/-- The number of zeros in the padding of a message. -/
def zeros (l : ℕ) : ℕ := (959 - l % 512) % 512

/-- The padded message. -/
def pad (message : Bits) : Bits :=
  message ++ true :: List.replicate (zeros message.length) false ++ lengthBits message.length

/-- `ROTL`. -/
def rotl (n : UInt32) (x : UInt32) : UInt32 := x <<< n ||| x >>> (32 - n)

/-- The functions of the rounds: `Ch`, `Parity` and `Maj`. -/
def f (t : ℕ) (x y z : UInt32) : UInt32 :=
  if t < 20 then (x &&& y) ^^^ (~~~x &&& z)
  else if t < 40 then x ^^^ y ^^^ z
  else if t < 60 then (x &&& y) ^^^ (x &&& z) ^^^ (y &&& z)
  else x ^^^ y ^^^ z

/-- The constants of the rounds. -/
def k (t : ℕ) : UInt32 :=
  if t < 20 then 0x5A827999 else if t < 40 then 0x6ED9EBA1 else if t < 60 then 0x8F1BBCDC else 0xCA62C1D6

/-- Five words. -/
structure Words where
  a : UInt32
  b : UInt32
  c : UInt32
  d : UInt32
  e : UInt32
deriving DecidableEq

/-- The initial chaining value. -/
def initial : Words := ⟨0x67452301, 0xEFCDAB89, 0x98BADCFE, 0x10325476, 0xC3D2E1F0⟩

/-- The words of a block. -/
def blockWord (block : Bits) (t : ℕ) : UInt32 := UInt32.ofNat (value ((block.drop (32 * t)).take 32))

/-- The message schedule. -/
def schedule (m : ℕ → UInt32) (t : ℕ) : UInt32 :=
  if h : t < 16 then m t
  else
    have : t - 3 < t ∧ t - 8 < t ∧ t - 14 < t ∧ t - 16 < t := by omega
    rotl 1 (schedule m (t - 3) ^^^ schedule m (t - 8) ^^^ schedule m (t - 14) ^^^ schedule m (t - 16))
termination_by t
decreasing_by all_goals omega

/-- One round. -/
def round (w : ℕ → UInt32) (t : ℕ) (v : Words) : Words :=
  ⟨rotl 5 v.a + f t v.b v.c v.d + v.e + k t + w t, v.a, rotl 30 v.b, v.c, v.d⟩

/-- The working variables after some rounds. -/
def rounds (w : ℕ → UInt32) (h : Words) : ℕ → Words
  | 0 => h
  | t + 1 => round w t (rounds w h t)

/-- The chaining value after a block. -/
def compress (h : Words) (block : Bits) : Words :=
  let v := rounds (schedule (blockWord block)) h 80
  ⟨h.a + v.a, h.b + v.b, h.c + v.c, h.d + v.d, h.e + v.e⟩

/-- The blocks of a padded message. -/
def blocks (padded : Bits) : List Bits :=
  (List.range (padded.length / 512)).map fun i => (padded.drop (512 * i)).take 512

/-- The chaining value after the last block. -/
def hash (message : Bits) : Words := (blocks (pad message)).foldl compress initial

/-- The message digest as bytes. -/
def digest (h : Words) : List UInt8 :=
  [h.a, h.b, h.c, h.d, h.e].flatMap fun w : UInt32 =>
    [(w >>> 24).toUInt8, (w >>> 16).toUInt8, (w >>> 8).toUInt8, w.toUInt8]

theorem length_digest (h : Words) : (digest h).length = 20 := rfl

/-! ### The padding -/

/-- The zeros are the fewest that leave 64 bits of the last block. -/
theorem zeros_spec (l : ℕ) : (l + 1 + zeros l) % 512 = 448 ∧
    ∀ n, (l + 1 + n) % 512 = 448 → zeros l ≤ n := by
  rw [zeros]
  refine ⟨by omega, fun n hn => ?_⟩
  omega

@[simp] theorem length_byteBits (b : UInt8) : (byteBits b).length = 8 := rfl

@[simp] theorem length_bits (bytes : List UInt8) : (bits bytes).length = 8 * bytes.length := by
  induction bytes with
  | nil => rfl
  | cons b bytes ih =>
      rw [bits, List.flatMap_cons, List.length_append, length_byteBits, ← bits, ih, List.length_cons]
      omega

theorem bits_append (bytes rest : List UInt8) : bits (bytes ++ rest) = bits bytes ++ bits rest :=
  List.flatMap_append

/-- The bytes from a place on. -/
theorem drop_bits (bytes : List UInt8) (n : ℕ) : (bits bytes).drop (8 * n) = bits (bytes.drop n) := by
  induction n generalizing bytes with
  | zero => simp
  | succ n ih =>
      cases bytes with
      | nil => simp [bits]
      | cons b bytes =>
          rw [List.drop_succ_cons, ← ih bytes, bits, List.flatMap_cons, ← bits,
            show 8 * (n + 1) = (byteBits b).length + 8 * n by rw [length_byteBits]; omega,
            List.drop_append, List.drop_eq_nil_of_le (by omega), Nat.add_sub_cancel_left, List.nil_append]

/-- The bytes before a place. -/
theorem take_bits (bytes : List UInt8) (n : ℕ) : (bits bytes).take (8 * n) = bits (bytes.take n) := by
  induction n generalizing bytes with
  | zero => simp [bits]
  | succ n ih =>
      cases bytes with
      | nil => simp [bits]
      | cons b bytes =>
          rw [List.take_succ_cons, bits, bits, List.flatMap_cons, List.flatMap_cons, ← bits, ← bits,
            ← ih bytes,
            show 8 * (n + 1) = (byteBits b).length + 8 * n by rw [length_byteBits]; omega,
            List.take_append, List.take_of_length_le (by omega), Nat.add_sub_cancel_left]

/-- The byte of eight zeros. -/
theorem bits_zeros (n : ℕ) : bits (List.replicate n 0) = List.replicate (8 * n) false := by
  induction n with
  | zero => rfl
  | succ n ih =>
      rw [List.replicate_succ, bits, List.flatMap_cons, ← bits, ih, show 8 * (n + 1) = 8 + 8 * n by omega,
        List.replicate_add]
      rfl

/-- The eight bytes of a length. -/
def lengthBytes (n : ℕ) : List UInt8 := (List.range 8).map fun i => UInt8.ofNat (n / 2 ^ (56 - i * 8))

theorem bits_lengthBytes (n : ℕ) : bits (lengthBytes n) = lengthBits n := by
  have hbyte : ∀ i, byteBits (UInt8.ofNat (n / 2 ^ i)) =
      [7, 6, 5, 4, 3, 2, 1, 0].map fun j => n.testBit (i + j) := by
    intro i
    refine List.map_congr_left fun j hj => ?_
    have hj8 : j < 8 := by fin_cases hj <;> omega
    rw [UInt8.toNat_ofNat', Nat.testBit_mod_two_pow, Nat.testBit_div_two_pow, decide_eq_true hj8,
      Bool.true_and, Nat.add_comm]
  simp only [bits, lengthBytes, List.flatMap_map, hbyte]
  rfl

/-- **The padding of bytes**: a byte `0x80`, zeros and the length in bits. -/
theorem pad_bytes (bytes : List UInt8) :
    pad (bits bytes) = bits (bytes ++ 0x80 :: List.replicate ((119 - bytes.length % 64) % 64) 0 ++
      lengthBytes (8 * bytes.length)) := by
  have hmarker : bits ((0x80 : UInt8) :: List.replicate ((119 - bytes.length % 64) % 64) 0) =
      true :: List.replicate (zeros (8 * bytes.length)) false := by
    rw [bits, List.flatMap_cons, ← bits, bits_zeros,
      show zeros (8 * bytes.length) = 7 + 8 * ((119 - bytes.length % 64) % 64) by
        rw [zeros]; omega, List.replicate_add]
    rfl
  rw [pad, bits_append, bits_append, hmarker, bits_lengthBytes, length_bits]

end Sha1
