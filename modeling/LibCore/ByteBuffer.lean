import Mathlib.Tactic
import LibCore.Bytes

/-!
# The Byte Buffer

`ensure_capacity`, `compact`, `writeByte` and `write` of `bytebuffer.c`. A buffer is the bytes below `write_pos`,
the read position and the capacity; allocations succeed. The capacity doubles, and a doubling is
refused above half of `BB_MAX_CAPACITY`, so a buffer can be filled to that cap only when its capacity
is a power of two.

## Main results

* `Room.writeByte`: a buffer with room for `limit` bytes takes the next byte and keeps the room.
-/

open CString

/-- `ByteBuffer`: the bytes below `write_pos`, `read_pos` and `capacity`. -/
structure ByteBuffer where
  data : Bytes
  readPos : ℕ
  capacity : ℕ
deriving DecidableEq

namespace ByteBuffer

/-- `BB_MAX_CAPACITY`. -/
def maxCapacity : ℕ := 1024 * 1024 * 16

/-- `new_ByteBuffer`. -/
def new (capacity : ℕ) : ByteBuffer := ⟨[], 0, if capacity = 0 then 1024 else capacity⟩

/-- `compact`. -/
def compact (b : ByteBuffer) : ByteBuffer :=
  if b.readPos = 0 then b else { b with data := b.data.drop b.readPos, readPos := 0 }

/-- The loop that doubles `new_cap`, for at most `fuel` rounds; `none` for `-1`. -/
def growLoop (needed : ℕ) : ℕ → ℕ → Option ℕ
  | 0, _ => none
  | fuel + 1, newCap =>
      if newCap < needed then
        if newCap > maxCapacity / 2 then none else growLoop needed fuel (newCap * 2)
      else some newCap

/-- `ensure_capacity`: the buffer it leaves, and whether it returns 0. Doubling a positive capacity
passes the cap within 25 rounds. -/
def ensureCapacity (b : ByteBuffer) (len : ℕ) : ByteBuffer × Bool :=
  if len > 2 ^ 64 - 1 - b.data.length then (b, false)
  else
    let b := if b.data.length + len > b.capacity then b.compact else b
    let needed := b.data.length + len
    if needed ≤ b.capacity then (b, true)
    else
      match growLoop needed 25 (if b.capacity = 0 then 1024 else b.capacity) with
      | none => (b, false)
      | some newCap => ({ b with capacity := newCap }, true)

/-- `writeByte`: the buffer it leaves, and whether it returns 0. -/
def writeByte (b : ByteBuffer) (c : UInt8) : ByteBuffer × Bool :=
  let r := b.ensureCapacity 1
  if r.2 then ({ r.1 with data := r.1.data ++ [c] }, true) else (r.1, false)

/-- `write`: the buffer it leaves, and whether it returns 0. -/
def write (b : ByteBuffer) (bytes : Bytes) : ByteBuffer × Bool :=
  if bytes = [] then (b, true)
  else
    let r := b.ensureCapacity bytes.length
    if r.2 then ({ r.1 with data := r.1.data ++ bytes }, true) else (r.1, false)

theorem ensureCapacity_of_fits {b : ByteBuffer} {len : ℕ} (hfits : b.data.length + len ≤ b.capacity)
    (hsmall : b.data.length + len < 2 ^ 64) : b.ensureCapacity len = (b, true) := by
  have hstay : (if b.data.length + len > b.capacity then b.compact else b) = b := if_neg (by omega)
  rw [ensureCapacity, if_neg (by omega), hstay]
  exact if_pos hfits

/-- What fits is written. -/
theorem write_of_fits {b : ByteBuffer} {bytes : Bytes}
    (hfits : b.data.length + bytes.length ≤ b.capacity)
    (hsmall : b.data.length + bytes.length < 2 ^ 64) :
    b.write bytes = ({ b with data := b.data ++ bytes }, true) := by
  rw [write]
  split_ifs with hnil
  · rw [hnil, List.append_nil]
  · rw [ensureCapacity_of_fits hfits hsmall]
    rfl

/-- From `m * 2 ^ k` the doubling reaches any size up to `m * 2 ^ top`, where that is within the cap. -/
theorem growLoop_mul_two_pow {m needed k top fuel : ℕ} (hneeded : needed ≤ m * 2 ^ top)
    (htop : m * 2 ^ top ≤ maxCapacity) (hk : k ≤ top) (hfuel : top < k + fuel) :
    ∃ j ≤ top, needed ≤ m * 2 ^ j ∧ growLoop needed fuel (m * 2 ^ k) = some (m * 2 ^ j) := by
  induction fuel generalizing k with
  | zero => omega
  | succ fuel ih =>
      rw [growLoop]
      -- a capacity below what is needed can be doubled
      have hnext : m * 2 ^ k < needed → k + 1 ≤ top := fun hlt =>
        Nat.lt_of_le_of_ne hk fun heq => by
          rw [heq] at hlt
          omega
      split_ifs with hlt hhalf
      · have hdouble : m * 2 ^ (k + 1) ≤ m * 2 ^ top :=
          Nat.mul_le_mul_left m (Nat.pow_le_pow_right two_pos (hnext hlt))
        rw [pow_succ, ← Nat.mul_assoc] at hdouble
        omega
      · rw [Nat.mul_assoc, ← pow_succ]
        exact ih (hnext hlt) (by omega)
      · exact ⟨k, hk, Nat.not_lt.mp hlt, rfl⟩

/-- Nothing beyond the cap is reached from a power of two. -/
theorem growLoop_eq_none {needed k : ℕ} (hneeded : maxCapacity < needed) (hk : k ≤ 24) (fuel : ℕ) :
    growLoop needed fuel (2 ^ k) = none := by
  induction fuel generalizing k with
  | zero => rfl
  | succ fuel ih =>
      have hle : 2 ^ k ≤ 2 ^ 24 := Nat.pow_le_pow_right two_pos hk
      rw [maxCapacity] at hneeded
      rw [growLoop, if_pos (by omega), maxCapacity]
      split_ifs with hhalf
      · rfl
      · have hne : k ≠ 24 := by
          rintro rfl
          omega
        rw [← pow_succ]
        exact ih (by omega)

/-- From a power of two the doubling reaches any size up to the cap. -/
theorem growLoop_two_pow {needed k fuel : ℕ} (hneeded : needed ≤ maxCapacity) (hk : k ≤ 24)
    (hfuel : 24 < k + fuel) : ∃ j ≤ 24, growLoop needed fuel (2 ^ k) = some (2 ^ j) := by
  have hcap : maxCapacity = 1 * 2 ^ 24 := rfl
  obtain ⟨j, hj, -, hgrow⟩ := growLoop_mul_two_pow (hcap ▸ hneeded) hcap.ge hk hfuel
  rw [one_mul, one_mul] at hgrow
  exact ⟨j, hj, hgrow⟩

/-- A buffer, read from its start, that can be filled with `limit` bytes. -/
structure Room (limit : ℕ) (b : ByteBuffer) : Prop where
  readPos_eq : b.readPos = 0
  limit_le : limit ≤ maxCapacity
  grows : limit ≤ b.capacity ∨ ∃ k ≤ 24, b.capacity = 2 ^ k

theorem Room.ensureCapacity {limit : ℕ} {b : ByteBuffer} (h : Room limit b)
    (hlen : b.data.length < limit) :
    ∃ cap, b.ensureCapacity 1 = ({ b with capacity := cap }, true) ∧
      Room limit { b with capacity := cap } := by
  have hlimit := h.limit_le
  have hcompact : b.compact = b := if_pos h.readPos_eq
  rw [maxCapacity] at hlimit
  rw [ByteBuffer.ensureCapacity, if_neg (by omega), hcompact, ite_self]
  dsimp only
  by_cases hcap : b.data.length + 1 ≤ b.capacity
  · exact ⟨b.capacity, if_pos hcap, h⟩
  · rw [if_neg hcap]
    obtain ⟨k, hk, hpow⟩ := h.grows.resolve_left (by omega)
    have hzero : b.capacity ≠ 0 := by
      rw [hpow]
      positivity
    have hneeded : b.data.length + 1 ≤ maxCapacity := by
      rw [maxCapacity]
      omega
    obtain ⟨j, hj, hgrow⟩ := growLoop_two_pow hneeded hk (show 24 < k + 25 by omega)
    rw [if_neg hzero, hpow, hgrow]
    exact ⟨2 ^ j, rfl, h.readPos_eq, h.limit_le, .inr ⟨j, hj, rfl⟩⟩

/-- A buffer with room for `limit` bytes takes the next byte. -/
theorem Room.writeByte {limit : ℕ} {b : ByteBuffer} (h : Room limit b) (hlen : b.data.length < limit)
    (c : UInt8) : ∃ b', b.writeByte c = (b', true) ∧ b'.data = b.data ++ [c] ∧ Room limit b' := by
  obtain ⟨cap, hensure, hroom⟩ := h.ensureCapacity hlen
  refine ⟨⟨b.data ++ [c], b.readPos, cap⟩, ?_, rfl, hroom.readPos_eq, hroom.limit_le, hroom.grows⟩
  rw [ByteBuffer.writeByte, hensure]
  rfl

end ByteBuffer
