import LibCore.Bytes

/-!
# Blocks of Memory

A block as `malloc` gives it: cells that hold a byte once one was stored there. A store that leaves the block
has no result, and neither has reading a string with a cell that was never stored to.

## Main results

* `store_append`: a store replaces as many cells as it has bytes.
* `cstring_append_zero`: the string in front of the first NUL.
-/

open CString

namespace RawMemory

/-- The cells of a block. -/
abbrev Block := List (Option UInt8)

/-- `malloc`. -/
def malloc (n : ℕ) : Block := List.replicate n none

/-- Bytes stored from index `i` on; `none` if one of them is outside the block. -/
def store (block : Block) (i : ℤ) (bytes : Bytes) : Option Block :=
  if 0 ≤ i ∧ i + bytes.length ≤ block.length then
    some (block.take i.toNat ++ bytes.map some ++ block.drop (i.toNat + bytes.length))
  else none

/-- The string at the start of a block; `none` if there is a cell without a byte before the NUL, or no NUL. -/
def cstring : Block → Option Bytes
  | [] => none
  | none :: _ => none
  | some c :: block => if c = 0 then some [] else (cstring block).map (c :: ·)

theorem length_malloc (n : ℕ) : (malloc n).length = n := List.length_replicate

/-- A store between two parts of a block. -/
theorem store_append (front cells back : Block) {bytes : Bytes} (hlen : cells.length = bytes.length) :
    store (front ++ (cells ++ back)) front.length bytes = some (front ++ (bytes.map some ++ back)) := by
  have hinside : 0 ≤ (front.length : ℤ) ∧
      (front.length : ℤ) + bytes.length ≤ (front ++ (cells ++ back)).length := by
    simp only [List.length_append]
    omega
  have hback : (front ++ (cells ++ back)).drop (front.length + bytes.length) = back := by
    rw [← hlen, ← List.append_assoc, ← List.length_append, List.drop_left]
  rw [store, if_pos hinside, Int.toNat_natCast, List.take_left, hback, List.append_assoc]

/-- A string without a NUL, and the NUL behind it. -/
theorem cstring_append_zero {s : Bytes} (hs : 0 ∉ s) (rest : Block) :
    cstring (s.map some ++ some 0 :: rest) = some s := by
  induction s with
  | nil => rfl
  | cons c s ih =>
      rw [List.mem_cons, not_or] at hs
      rw [List.map_cons, List.cons_append, cstring, if_neg (Ne.symm hs.1), ih hs.2]
      rfl

end RawMemory
