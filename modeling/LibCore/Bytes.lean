import Mathlib.Data.List.Basic
import Mathlib.Data.List.TakeWhile
import Mathlib.Tactic

/-!
# Bytes and C Strings

The C programs of this development read and write byte buffers. A buffer is a list of
bytes, and the C string at its head runs up to the first NUL. This module gives the
few library functions that walk such buffers (`strstr`, `strchr`, `memchr`, `strncmp`,
`isspace`, `isxdigit`) and the facts about them that the modules above cite.

Nothing here names a program: a buffer is any `List UInt8`.

## Main results

* `strstr_eq_some_iff`: a hit of `strstr` is the leftmost occurrence, before any NUL.
* `strstr_append`: a hit does not depend on the bytes behind it.
* `strncmpEq_iff`: `strncmp(a, b, n) == 0` compares the first `n` bytes.
-/

namespace CString

/-- A byte buffer. -/
abbrev Bytes := List UInt8

/-- A statement about every byte is a statement about 256 numbers. -/
instance (priority := low) decidableForallByte {p : UInt8 → Prop} [DecidablePred p] : Decidable (∀ b, p b) :=
  decidable_of_iff (∀ n : Fin 256, p (UInt8.ofFin n)) ⟨fun h b => h b.toFin, fun h _ => h _⟩

/-- The bytes of an ASCII text. -/
def ascii (cs : List Char) : Bytes := cs.map Char.toUInt8

/-- The C string at the head of a buffer: everything before the first NUL. -/
def cstr (buf : Bytes) : Bytes := buf.takeWhile (· ≠ 0)

/-- A scan stops at the first byte that is not of its class. -/
theorem takeWhile_append {p : UInt8 → Bool} {s t : Bytes} (hs : ∀ c ∈ s, p c = true)
    (ht : ∀ c ∈ t.head?, p c = false) : (s ++ t).takeWhile p = s := by
  rw [List.takeWhile_append_of_pos hs]
  cases t with
  | nil => simp
  | cons c t => simp [ht c rfl]

theorem dropWhile_append {p : UInt8 → Bool} {s t : Bytes} (hs : ∀ c ∈ s, p c = true)
    (ht : ∀ c ∈ t.head?, p c = false) : (s ++ t).dropWhile p = t := by
  rw [List.dropWhile_append_of_pos hs]
  cases t with
  | nil => rfl
  | cons c t => simp [ht c rfl]

/-- A buffer without a NUL is one string. -/
theorem cstr_of_zero_notMem {s : Bytes} (hs : 0 ∉ s) : cstr s = s := by
  refine List.takeWhile_eq_self_iff.mpr fun c hc => ?_
  simpa using fun h0 : c = 0 => hs (h0 ▸ hc)

/-- `strncmp(a, b, n) == 0` on two C strings. -/
def strncmpEq : ℕ → Bytes → Bytes → Bool
  | 0, _, _ => true
  | _ + 1, [], [] => true
  | n + 1, a :: as, b :: bs => a = b && strncmpEq n as bs
  | _ + 1, _, _ => false

/-- `strncmp` is an equality test on the first `n` bytes. -/
theorem strncmpEq_iff {n : ℕ} {a b : Bytes} :
    strncmpEq n a b = true ↔ a.take n = b.take n := by
  induction n generalizing a b with
  | zero => simp [strncmpEq]
  | succ n ih =>
      cases a with
      | nil => cases b <;> simp [strncmpEq]
      | cons x xs =>
          cases b with
          | nil => simp [strncmpEq]
          | cons y ys => simp [strncmpEq, ih]

/-- A string shorter than the bound is `strncmp`-equal only to itself. -/
theorem strncmpEq_iff_of_lt {n : ℕ} {a b : Bytes} (h : b.length < n) :
    strncmpEq n a b = true ↔ a = b := by
  rw [strncmpEq_iff, List.take_of_length_le h.le]
  constructor
  · intro hab
    have hlen : a.length < n := by
      have := congrArg List.length hab
      rw [List.length_take] at this
      omega
    rwa [List.take_of_length_le hlen.le] at hab
  · rintro rfl
    exact List.take_of_length_le h.le

/-! ### Searching -/

/-- `memchr(s, c, len)` on a buffer of that length: the offset of the first `c`. -/
def memchr (c : UInt8) : Bytes → Option ℕ
  | [] => none
  | b :: s => if b = c then some 0 else (memchr c s).map (· + 1)

/-- `strchr`, for a byte other than NUL. -/
def strchr (c : UInt8) (s : Bytes) : Option ℕ := memchr c (cstr s)

/-- `strstr`: the offset of the first occurrence in the C string at the head of a buffer. -/
def strstr (needle : Bytes) : Bytes → Option ℕ
  | [] => if needle = [] then some 0 else none
  | c :: s =>
      if needle <+: c :: s then some 0
      else if c = 0 then none
      else (strstr needle s).map (· + 1)

/-- A hit splits the buffer at the first `c`. -/
theorem memchr_eq_some {c : UInt8} {s : Bytes} {i : ℕ} (h : memchr c s = some i) :
    s = s.take i ++ c :: s.drop (i + 1) ∧ c ∉ s.take i ∧ i < s.length := by
  induction s generalizing i with
  | nil => simp [memchr] at h
  | cons b s ih =>
      by_cases hb : b = c
      · obtain rfl : 0 = i := by simpa [memchr, hb] using h
        simp [hb]
      · simp only [memchr, hb, if_false, Option.map_eq_some_iff] at h
        obtain ⟨j, hj, rfl⟩ := h
        obtain ⟨h₁, h₂, h₃⟩ := ih hj
        refine ⟨?_, ?_, by simpa using h₃⟩
        · rw [List.take_succ_cons, List.drop_succ_cons, List.cons_append]
          exact congrArg _ h₁
        · simp [Ne.symm hb, h₂]

theorem memchr_append_cons {c : UInt8} {a : Bytes} (ha : c ∉ a) (b : Bytes) :
    memchr c (a ++ c :: b) = some a.length := by
  induction a with
  | nil => simp [memchr]
  | cons x a ih =>
      rw [List.mem_cons, not_or] at ha
      simp [memchr, Ne.symm ha.1, ih ha.2]

/-- A hit of `strstr` is the leftmost occurrence, before any NUL. -/
theorem strstr_eq_some_iff {needle s : Bytes} (hne : needle ≠ []) {i : ℕ} :
    strstr needle s = some i ↔
      needle <+: s.drop i ∧ (∀ j < i, ¬needle <+: s.drop j) ∧ ∀ c ∈ s.take i, c ≠ 0 := by
  induction s generalizing i with
  | nil => simp [strstr, hne]
  | cons c s ih =>
      by_cases hp : needle <+: c :: s
      · simp only [strstr, hp, if_true, Option.some.injEq]
        constructor
        · rintro rfl
          simpa using hp
        · rintro ⟨-, hmin, -⟩
          by_contra hi
          exact hmin 0 (by omega) hp
      · cases i with
        | zero => by_cases hc : c = 0 <;> simp [strstr, hp, hc]
        | succ i =>
            have hmin : (∀ j < i + 1, ¬needle <+: (c :: s).drop j) ↔
                ∀ j < i, ¬needle <+: s.drop j := by
              constructor
              · intro h j hj
                exact h (j + 1) (by omega)
              · intro h j hj
                cases j with
                | zero => exact hp
                | succ j => exact h j (by omega)
            rw [hmin]
            by_cases hc : c = 0
            · simp [strstr, hc]
            · simp [strstr, hp, hc, ih]

/-- A hit lies inside the buffer. -/
theorem strstr_add_length_le {needle s : Bytes} (hne : needle ≠ []) {i : ℕ}
    (h : strstr needle s = some i) : i + needle.length ≤ s.length := by
  have hp := ((strstr_eq_some_iff hne).mp h).1.length_le
  have hpos := List.length_pos_iff.mpr hne
  rw [List.length_drop] at hp
  omega

/-- A hit does not depend on the bytes behind it. -/
theorem strstr_append {needle s : Bytes} (hne : needle ≠ []) {i : ℕ}
    (h : strstr needle s = some i) (t : Bytes) : strstr needle (s ++ t) = some i := by
  have hlen := strstr_add_length_le hne h
  rw [strstr_eq_some_iff hne] at h ⊢
  obtain ⟨hp, hmin, hz⟩ := h
  refine ⟨?_, ?_, ?_⟩
  · rw [List.drop_append_of_le_length (by omega)]
    exact hp.trans (List.prefix_append _ _)
  · intro j hj hpj
    refine hmin j hj ?_
    rw [List.drop_append_of_le_length (by omega)] at hpj
    exact List.prefix_of_prefix_length_le hpj (List.prefix_append _ _)
      (by rw [List.length_drop]; omega)
  · intro c hc
    rw [List.take_append_of_le_length (by omega)] at hc
    exact hz c hc

/-- Nor on how much of the buffer is there, as long as the hit is. -/
theorem strstr_take {needle s : Bytes} (hne : needle ≠ []) {i n : ℕ}
    (h : strstr needle s = some i) (hn : i + needle.length ≤ n) :
    strstr needle (s.take n) = some i := by
  rw [strstr_eq_some_iff hne] at h ⊢
  obtain ⟨hp, hmin, hz⟩ := h
  refine ⟨?_, ?_, ?_⟩
  · rw [List.drop_take]
    exact (List.prefix_take_iff.mpr ⟨hp, by omega⟩)
  · intro j hj hpj
    rw [List.drop_take] at hpj
    exact hmin j hj (hpj.trans (List.take_prefix _ _))
  · intro c hc
    rw [List.take_take, Nat.min_eq_left (by omega)] at hc
    exact hz c hc

/-- A text is found behind bytes that are neither NUL nor its first one. -/
theorem strstr_append_cons {c : UInt8} {front : Bytes} (hc : c ∉ front) (hz : 0 ∉ front)
    (needle rest : Bytes) : strstr (c :: needle) (front ++ (c :: needle ++ rest)) = some front.length := by
  induction front with
  | nil => simp [strstr]
  | cons x front ih =>
      rw [List.mem_cons, not_or] at hc hz
      have hno : ¬c :: needle <+: x :: (front ++ (c :: needle ++ rest)) := by
        rw [List.cons_prefix_cons]
        exact fun h => hc.1 h.1
      rw [List.cons_append, strstr, if_neg hno, if_neg (Ne.symm hz.1), ih hc.2 hz.2]
      rfl

/-! ### Character classes of the C locale -/

/-- `isdigit`. -/
def isdigit (c : UInt8) : Bool := 0x30 ≤ c && c ≤ 0x39

/-- `isspace`: blank, tab, line feed, vertical tab, form feed and carriage return. -/
def isspace (c : UInt8) : Bool := c = 0x20 || (0x09 ≤ c && c ≤ 0x0D)

/-- `isalnum`. -/
def isalnum (c : UInt8) : Bool :=
  isdigit c || (0x41 ≤ c && c ≤ 0x5A) || (0x61 ≤ c && c ≤ 0x7A)

/-- `tolower`. -/
def tolower (c : UInt8) : UInt8 := if 0x41 ≤ c && c ≤ 0x5A then c + 0x20 else c

/-- `isxdigit`. -/
def isxdigit (c : UInt8) : Bool :=
  isdigit c || (0x41 ≤ c && c ≤ 0x46) || (0x61 ≤ c && c ≤ 0x66)

/-- The value of a hexadecimal digit. -/
def hexDigit (c : UInt8) : UInt8 :=
  if c ≤ 0x39 then c - 0x30 else if c ≤ 0x46 then c - 0x41 + 10 else c - 0x61 + 10

@[grind =]
theorem isdigit_eq_true_iff {c : UInt8} : isdigit c = true ↔ 0x30 ≤ c ∧ c ≤ 0x39 := by
  simp [isdigit]

@[grind =]
theorem isspace_eq_true_iff {c : UInt8} :
    isspace c = true ↔ c = 0x20 ∨ 0x09 ≤ c ∧ c ≤ 0x0D := by
  simp [isspace]

@[grind =]
theorem isxdigit_eq_true_iff {c : UInt8} :
    isxdigit c = true ↔
      isdigit c = true ∨ (0x41 ≤ c ∧ c ≤ 0x46) ∨ (0x61 ≤ c ∧ c ≤ 0x66) := by
  simp [isxdigit, or_assoc]

end CString
