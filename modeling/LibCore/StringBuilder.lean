import LibCore.ByteBuffer

/-!
# The String Builder

`sb_ensure_capacity`, `sb_commit_write`, `appendChar` and `toString` of `string_builder.c`. A builder is a
byte buffer with a NUL kept behind its bytes, so that it can hold one byte less than the cap of the
buffer. What does not fit is dropped, and no caller is told; allocations succeed.

## Main results

* `Holds.appendChar`: a builder that starts with a power of two holds what fits of all it was given.
-/

open CString

/-- `StringBuilder`: its buffer, with a NUL behind the bytes. -/
structure StringBuilder where
  buffer : ByteBuffer
deriving DecidableEq

namespace StringBuilder

/-- `new_StringBuilder`. -/
def new (initialCapacity : ℕ) : StringBuilder :=
  ⟨ByteBuffer.new (if initialCapacity = 0 then 64 else initialCapacity)⟩

/-- `sb_ensure_capacity`: the builder it leaves, and whether it returns 1. -/
def sbEnsureCapacity (sb : StringBuilder) (required : ℕ) : StringBuilder × Bool :=
  if required > 2 ^ 64 - 1 - 1 then (sb, false)
  else if required ≤ sb.buffer.capacity then (sb, true)
  else
    match ByteBuffer.growLoop required 25
        (if sb.buffer.capacity = 0 then 64 else sb.buffer.capacity) with
    | none => (sb, false)
    | some newCap => (⟨{ sb.buffer with capacity := newCap }⟩, true)

/-- `sb_commit_write`: nothing is written where there is no room for the bytes and the NUL. -/
def sbCommitWrite (sb : StringBuilder) (data : Bytes) : StringBuilder :=
  if data = [] then sb
  else if data.length > 2 ^ 64 - 1 - sb.buffer.data.length - 1 then sb
  else
    let r := sb.sbEnsureCapacity (sb.buffer.data.length + data.length + 1)
    if r.2 then ⟨(r.1.buffer.write data).1⟩ else r.1

/-- `appendChar`. -/
def appendChar (sb : StringBuilder) (ch : UInt8) : StringBuilder := sb.sbCommitWrite [ch]

/-- `toString`: a `String` is copied up to the first NUL. -/
def toString (sb : StringBuilder) : Bytes := cstr sb.buffer.data

/-- The longest text of a builder. -/
def maxLength : ℕ := ByteBuffer.maxCapacity - 1

theorem le_maxLength_iff {n : ℕ} : n ≤ maxLength ↔ n < ByteBuffer.maxCapacity := Nat.lt_succ_iff.symm

/-- The builder was given `text`, and has what fits of it. -/
structure Holds (sb : StringBuilder) (text : Bytes) : Prop where
  data_eq : sb.buffer.data = text.take maxLength
  capacity_eq : ∃ k ≤ 24, sb.buffer.capacity = 2 ^ k

theorem holds_new {initialCapacity k : ℕ} (hk : k ≤ 24) (hcap : initialCapacity = 2 ^ k) :
    (new initialCapacity).Holds [] where
  data_eq := rfl
  capacity_eq := by
    have hne : initialCapacity ≠ 0 := by
      rw [hcap]
      positivity
    exact ⟨k, hk, by rw [new, if_neg hne, ByteBuffer.new, if_neg hne, hcap]⟩

section Capacity

variable {sb : StringBuilder} {text : Bytes} {required : ℕ}

/-- Below the cap, room is made. -/
theorem Holds.sbEnsureCapacity (h : sb.Holds text) (hreq : required ≤ ByteBuffer.maxCapacity) :
    ∃ cap, sb.sbEnsureCapacity required = (⟨{ sb.buffer with capacity := cap }⟩, true) ∧
      required ≤ cap ∧ ∃ k ≤ 24, cap = 2 ^ k := by
  obtain ⟨k, hk, hcap⟩ := h.capacity_eq
  have hmax : ByteBuffer.maxCapacity = 1 * 2 ^ 24 := rfl
  rw [StringBuilder.sbEnsureCapacity, if_neg (by rw [hmax] at hreq; omega)]
  by_cases hle : required ≤ sb.buffer.capacity
  · exact ⟨sb.buffer.capacity, if_pos hle, hle, k, hk, hcap⟩
  · have hzero : sb.buffer.capacity ≠ 0 := by
      rw [hcap]
      positivity
    obtain ⟨j, hj, hneeded, hgrow⟩ :=
      ByteBuffer.growLoop_mul_two_pow (hmax ▸ hreq) hmax.ge hk (show 24 < k + 25 by omega)
    rw [one_mul] at hneeded
    rw [one_mul, one_mul, ← hcap] at hgrow
    rw [if_neg hle, if_neg hzero, hgrow]
    exact ⟨2 ^ j, rfl, hneeded, j, hj, rfl⟩

/-- Beyond it, nothing happens. -/
theorem Holds.sbEnsureCapacity_none (h : sb.Holds text) (hreq : ByteBuffer.maxCapacity < required) :
    sb.sbEnsureCapacity required = (sb, false) := by
  obtain ⟨k, hk, hcap⟩ := h.capacity_eq
  have hle : (2 : ℕ) ^ k ≤ 2 ^ 24 := Nat.pow_le_pow_right two_pos hk
  have hmax : ByteBuffer.maxCapacity = 2 ^ 24 := rfl
  have hzero : sb.buffer.capacity ≠ 0 := by
    rw [hcap]
    positivity
  rw [StringBuilder.sbEnsureCapacity]
  split_ifs with hover hfits
  · rfl
  · omega
  · rw [hcap, ByteBuffer.growLoop_eq_none hreq hk]

end Capacity

/-- A character is appended where it fits. -/
theorem Holds.appendChar {sb : StringBuilder} {text : Bytes} (h : sb.Holds text) (ch : UInt8) :
    (sb.appendChar ch).Holds (text ++ [ch]) := by
  have hmax : ByteBuffer.maxCapacity = maxLength + 1 := rfl
  have hlen : sb.buffer.data.length = min maxLength text.length := by
    rw [h.data_eq, List.length_take]
  have hsmall : sb.buffer.data.length + 2 < 2 ^ 64 := by
    have hvalue : maxLength = 2 ^ 24 - 1 := rfl
    omega
  rw [StringBuilder.appendChar, sbCommitWrite, if_neg (List.cons_ne_nil _ _),
    if_neg (by rw [List.length_singleton]; omega), List.length_singleton]
  by_cases hroom : text.length < maxLength
  · obtain ⟨cap, hensure, hle, hcap⟩ := h.sbEnsureCapacity
      (show sb.buffer.data.length + 1 + 1 ≤ ByteBuffer.maxCapacity by omega)
    have hwrite := @ByteBuffer.write_of_fits { sb.buffer with capacity := cap } [ch]
      (by dsimp only; rw [List.length_singleton]; omega) (by dsimp only; rw [List.length_singleton]; omega)
    rw [hensure]
    dsimp only
    rw [if_pos rfl, hwrite]
    refine ⟨?_, hcap⟩
    dsimp only
    rw [h.data_eq, List.take_of_length_le hroom.le, List.take_of_length_le (by simpa using hroom)]
  · rw [h.sbEnsureCapacity_none (by omega)]
    refine ⟨?_, h.capacity_eq⟩
    change sb.buffer.data = _
    rw [h.data_eq, List.take_append_of_le_length (Nat.not_lt.mp hroom)]

theorem Holds.foldl_appendChar {sb : StringBuilder} {text : Bytes} (h : sb.Holds text) (s : Bytes) :
    (s.foldl StringBuilder.appendChar sb).Holds (text ++ s) := by
  induction s generalizing sb text with
  | nil => rwa [List.append_nil]
  | cons ch s ih =>
      rw [List.append_cons]
      exact ih (h.appendChar ch)

/-- The text that comes out, of a text without a NUL. -/
theorem Holds.toString_eq {sb : StringBuilder} {text : Bytes} (h : sb.Holds text) (hnul : 0 ∉ text) :
    sb.toString = text.take maxLength := by
  rw [toString, h.data_eq, cstr_of_zero_notMem fun hmem => hnul (List.mem_of_mem_take hmem)]

end StringBuilder
