import LibCore.Radix

/-!
# Base64

The encoding of RFC 4648, on bits: the bits of the bytes, most significant first, are taken in groups of
six, the last of which is filled with zero bits on its right; each group is a character of the alphabet,
and the text is padded with `=` to a multiple of four characters.

## Main results

* `encode_cons`: three bytes are four characters.
* `length_encode`: the length of the text.
-/

open CString Radix

namespace Base64

/-- The alphabet. -/
def alphabet : Bytes :=
  ascii ['A', 'B', 'C', 'D', 'E', 'F', 'G', 'H', 'I', 'J', 'K', 'L', 'M', 'N', 'O', 'P', 'Q', 'R', 'S',
    'T', 'U', 'V', 'W', 'X', 'Y', 'Z', 'a', 'b', 'c', 'd', 'e', 'f', 'g', 'h', 'i', 'j', 'k', 'l', 'm',
    'n', 'o', 'p', 'q', 'r', 's', 't', 'u', 'v', 'w', 'x', 'y', 'z', '0', '1', '2', '3', '4', '5', '6',
    '7', '8', '9', '+', '/']

/-- The character of a group. -/
def char (group : ℕ) : UInt8 := alphabet.getD group 0

/-- `=`. -/
def pad : UInt8 := 0x3D

/-- The bits of a byte. -/
def bits (c : UInt8) : List ℕ := [7, 6, 5, 4, 3, 2, 1, 0].map fun i => c.toNat / 2 ^ i % 2

/-- The groups of six bits. -/
def groups : List ℕ → List ℕ
  | [] => []
  | b₀ :: b₁ :: b₂ :: b₃ :: b₄ :: b₅ :: bs => value 2 [b₀, b₁, b₂, b₃, b₄, b₅] :: groups bs
  | bs => [value 2 (bs ++ List.replicate (6 - bs.length) 0)]

/-- The groups of a text of bytes. -/
def byteGroups (bytes : Bytes) : List ℕ := groups (bytes.flatMap bits)

/-- The encoding. -/
def encode (bytes : Bytes) : Bytes :=
  let chars := (byteGroups bytes).map char
  chars ++ List.replicate ((4 - chars.length % 4) % 4) pad

/-! ### Three bytes -/

/-- The number that three bytes are. -/
def triple (a b c : UInt8) : ℕ := a.toNat * 2 ^ 16 + b.toNat * 2 ^ 8 + c.toNat

theorem triple_lt (a b c : UInt8) : triple a b c < 2 ^ 24 := by
  have ha := a.toNat_lt
  have hb := b.toNat_lt
  have hc := c.toNat_lt
  rw [triple]
  omega

/-- The number has the bytes. -/
theorem triple_bytes (a b c : UInt8) : triple a b c / 2 ^ 16 = a.toNat ∧
    triple a b c / 2 ^ 8 % 2 ^ 8 = b.toNat ∧ triple a b c % 2 ^ 8 = c.toNat := by
  have ha := a.toNat_lt
  have hb := b.toNat_lt
  have hc := c.toNat_lt
  rw [triple]
  refine ⟨?_, ?_, ?_⟩ <;> omega

theorem triple_div_lt (a b c : UInt8) : triple a b c / 2 ^ 18 < 64 := by
  have hlt := triple_lt a b c
  omega

/-! ### Six bits at a time -/

/-- Six bits of a number, down to a place. -/
def window (n i : ℕ) : List ℕ := [5, 4, 3, 2, 1, 0].map fun j => n / 2 ^ (i + j) % 2

/-- One more bit on the right. -/
theorem push_bit (n i m : ℕ) : n / 2 ^ (i + 1) % m * 2 + n / 2 ^ i % 2 = n / 2 ^ i % (2 * m) := by
  rw [Nat.mod_mul, Nat.div_div_eq_div_mul, ← pow_succ, mul_comm 2, add_comm]

theorem value_window (n i : ℕ) : value 2 (window n i) = n / 2 ^ i % 64 := by
  simp only [window, List.map_cons, List.map_nil, value, List.foldl_cons, List.foldl_nil, zero_mul, zero_add]
  rw [push_bit n (i + 4), push_bit n (i + 3), push_bit n (i + 2), push_bit n (i + 1), push_bit n (i + 0)]
  rfl

/-- The bits of the bytes are those of the number. -/
theorem bit_first (a b c : UInt8) (i : ℕ) : a.toNat / 2 ^ i % 2 = triple a b c / 2 ^ (16 + i) % 2 := by
  rw [pow_add, ← Nat.div_div_eq_div_mul, (triple_bytes a b c).1]

theorem bit_second (a b c : UInt8) {i : ℕ} (hi : i < 8) :
    b.toNat / 2 ^ i % 2 = triple a b c / 2 ^ (8 + i) % 2 := by
  rw [pow_add, ← Nat.div_div_eq_div_mul, ← (triple_bytes a b c).2.1]
  interval_cases i <;> omega

theorem bit_third (a b c : UInt8) {i : ℕ} (hi : i < 8) :
    c.toNat / 2 ^ i % 2 = triple a b c / 2 ^ (0 + i) % 2 := by
  rw [zero_add, ← (triple_bytes a b c).2.2]
  interval_cases i <;> omega

theorem bits_first (a b c : UInt8) :
    bits a = [7, 6, 5, 4, 3, 2, 1, 0].map fun i => triple a b c / 2 ^ (16 + i) % 2 :=
  List.map_congr_left fun i _ => bit_first a b c i

theorem bits_second (a b c : UInt8) :
    bits b = [7, 6, 5, 4, 3, 2, 1, 0].map fun i => triple a b c / 2 ^ (8 + i) % 2 :=
  List.map_congr_left fun i hi => bit_second a b c (by revert i; decide)

theorem bits_third (a b c : UInt8) :
    bits c = [7, 6, 5, 4, 3, 2, 1, 0].map fun i => triple a b c / 2 ^ (0 + i) % 2 :=
  List.map_congr_left fun i hi => bit_third a b c (by revert i; decide)

theorem byteGroups_cons (a b c : UInt8) (rest : Bytes) :
    byteGroups (a :: b :: c :: rest) =
      triple a b c / 2 ^ 18 :: triple a b c / 2 ^ 12 % 64 :: triple a b c / 2 ^ 6 % 64 ::
        triple a b c % 64 :: byteGroups rest := by
  have hgroups : byteGroups (a :: b :: c :: rest) = value 2 (window (triple a b c) 18) ::
      value 2 (window (triple a b c) 12) :: value 2 (window (triple a b c) 6) ::
        value 2 (window (triple a b c) 0) :: byteGroups rest := by
    rw [byteGroups, List.flatMap_cons, List.flatMap_cons, List.flatMap_cons, bits_first a b c,
      bits_second a b c, bits_third a b c]
    rfl
  rw [hgroups]
  simp only [value_window, Nat.mod_eq_of_lt (triple_div_lt a b c), pow_zero, Nat.div_one]

/-- The bits that are filled in are those of a zero byte. -/
theorem byteGroups_pair (a b : UInt8) :
    byteGroups [a, b] =
      [triple a b 0 / 2 ^ 18, triple a b 0 / 2 ^ 12 % 64, triple a b 0 / 2 ^ 6 % 64] := by
  have hgroups : byteGroups [a, b] = [value 2 (window (triple a b 0) 18),
      value 2 (window (triple a b 0) 12), value 2 (window (triple a b 0) 6)] := by
    have hlast : window (triple a b 0) 6 =
        ([3, 2, 1, 0].map fun i => triple a b 0 / 2 ^ (8 + i) % 2) ++ [0, 0] := by
      have h7 := bit_third a b 0 (show 7 < 8 by decide)
      have h6 := bit_third a b 0 (show 6 < 8 by decide)
      exact congrArg₂ (fun x y => ([3, 2, 1, 0].map fun i => triple a b 0 / 2 ^ (8 + i) % 2) ++ [x, y])
        h7.symm h6.symm
    rw [byteGroups, List.flatMap_cons, List.flatMap_cons, bits_first a b 0, bits_second a b 0, hlast]
    rfl
  rw [hgroups]
  simp only [value_window, Nat.mod_eq_of_lt (triple_div_lt a b 0)]

theorem byteGroups_single (a : UInt8) :
    byteGroups [a] = [triple a 0 0 / 2 ^ 18, triple a 0 0 / 2 ^ 12 % 64] := by
  have hgroups : byteGroups [a] = [value 2 (window (triple a 0 0) 18),
      value 2 (window (triple a 0 0) 12)] := by
    have hlast : window (triple a 0 0) 12 =
        ([1, 0].map fun i => triple a 0 0 / 2 ^ (16 + i) % 2) ++ [7, 6, 5, 4].map fun i =>
          (0 : UInt8).toNat / 2 ^ i % 2 := by
      have hzero : ([7, 6, 5, 4].map fun i => (0 : UInt8).toNat / 2 ^ i % 2) =
          [7, 6, 5, 4].map fun i => triple a 0 0 / 2 ^ (8 + i) % 2 :=
        List.map_congr_left fun i hi => bit_second a 0 0 (by revert i; decide)
      rw [hzero]
      rfl
    rw [byteGroups, List.flatMap_cons, bits_first a 0 0, hlast]
    rfl
  rw [hgroups]
  simp only [value_window, Nat.mod_eq_of_lt (triple_div_lt a 0 0)]

/-- Three bytes are four characters. -/
theorem encode_cons (a b c : UInt8) (rest : Bytes) :
    encode (a :: b :: c :: rest) =
      char (triple a b c / 2 ^ 18) :: char (triple a b c / 2 ^ 12 % 64) ::
        char (triple a b c / 2 ^ 6 % 64) :: char (triple a b c % 64) :: encode rest := by
  simp only [encode, byteGroups_cons, List.map_cons, List.cons_append, List.length_cons]
  rw [show ∀ n, (n + 1 + 1 + 1 + 1) % 4 = n % 4 by omega]

theorem encode_pair (a b : UInt8) :
    encode [a, b] = [char (triple a b 0 / 2 ^ 18), char (triple a b 0 / 2 ^ 12 % 64),
      char (triple a b 0 / 2 ^ 6 % 64), pad] := by
  rw [encode, byteGroups_pair]
  rfl

theorem encode_single (a : UInt8) :
    encode [a] = [char (triple a 0 0 / 2 ^ 18), char (triple a 0 0 / 2 ^ 12 % 64), pad, pad] := by
  rw [encode, byteGroups_single]
  rfl

/-- Three bytes at a time. -/
theorem threes_induction {P : Bytes → Prop} (nil : P []) (single : ∀ a, P [a])
    (pair : ∀ a b, P [a, b]) (cons : ∀ a b c rest, P rest → P (a :: b :: c :: rest)) :
    ∀ bytes, P bytes
  | [] => nil
  | [a] => single a
  | [a, b] => pair a b
  | a :: b :: c :: rest => cons a b c rest (threes_induction nil single pair cons rest)

theorem length_encode (bytes : Bytes) : (encode bytes).length = (bytes.length + 2) / 3 * 4 := by
  induction bytes using threes_induction with
  | nil => rfl
  | single a => simp only [encode_single, List.length_cons, List.length_nil]
  | pair a b => simp only [encode_pair, List.length_cons, List.length_nil]
  | cons a b c rest ih =>
      rw [encode_cons]
      simp only [List.length_cons, ih]
      omega

/-- The alphabet has no `=` and no NUL. -/
theorem char_ne {group : ℕ} (h : group < 64) : char group ≠ pad ∧ char group ≠ 0 := by
  have hall : ∀ n : Fin 64, char n.val ≠ pad ∧ char n.val ≠ 0 := by
    decide
  exact hall ⟨group, h⟩

theorem zero_notMem_encode (bytes : Bytes) : 0 ∉ encode bytes := by
  have hfirst : ∀ a b c, 0 ≠ char (triple a b c / 2 ^ 18) := fun a b c =>
    (char_ne (triple_div_lt a b c)).2.symm
  have hmod : ∀ n, 0 ≠ char (n % 64) := fun n => (char_ne (Nat.mod_lt n (by decide))).2.symm
  have hpad : (0 : UInt8) ≠ pad := by decide
  induction bytes using threes_induction with
  | nil => exact List.not_mem_nil
  | single a => simp only [encode_single, List.mem_cons, hfirst, hmod, hpad, List.not_mem_nil,
      or_self, not_false_eq_true]
  | pair a b => simp only [encode_pair, List.mem_cons, hfirst, hmod, hpad, List.not_mem_nil,
      or_self, not_false_eq_true]
  | cons a b c rest ih => simp only [encode_cons, List.mem_cons, hfirst, hmod, ih, or_self,
      not_false_eq_true]

example : encode (ascii ['f', 'o', 'o', 'b']) = ascii ['Z', 'm', '9', 'v', 'Y', 'g', '=', '='] := by
  decide

end Base64
