import LibCore.Bytes

/-!
# Well-Formed UTF-8

The UTF-8 syntax of RFC 3629 over byte lists. A character is one to four bytes; the
second byte is narrowed after the lead bytes `E0`, `ED`, `F0` and `F4`, which is what rules
out overlong forms, surrogates and code points above `U+10FFFF`. A text is a sequence of
characters.

`headLen` measures the character at the head of a buffer and makes the syntax decidable.
The characters form a prefix code, so a well-formed front can be cancelled.

## Main results

* `wellFormed_iff_headLen`: a text is well formed exactly when it starts with a character
  and continues well formed.
* `wellFormed_append_iff`: a well-formed front can be cancelled.
* `wellFormed_append_char_iff`: a character in the middle splits a text into two.
-/

open CString

namespace Utf8

/-- A continuation byte. -/
def IsTail (b : UInt8) : Prop := 0x80 ≤ b ∧ b ≤ 0xBF

instance : DecidablePred IsTail := fun b => inferInstanceAs (Decidable (0x80 ≤ b ∧ b ≤ 0xBF))

/-- The second byte of a character with lead byte `a`: a continuation byte, narrowed after
`E0` and `F0` (overlong forms), `ED` (surrogates) and `F4` (above `U+10FFFF`). -/
def IsSecond (a b : UInt8) : Prop :=
  IsTail b ∧ (a = 0xE0 → 0xA0 ≤ b) ∧ (a = 0xED → b ≤ 0x9F) ∧ (a = 0xF0 → 0x90 ≤ b) ∧
    (a = 0xF4 → b ≤ 0x8F)

instance (a b : UInt8) : Decidable (IsSecond a b) :=
  inferInstanceAs (Decidable (IsTail b ∧ (a = 0xE0 → 0xA0 ≤ b) ∧ (a = 0xED → b ≤ 0x9F) ∧
    (a = 0xF0 → 0x90 ≤ b) ∧ (a = 0xF4 → b ≤ 0x8F)))

/-- The bytes of one character. -/
def IsChar : Bytes → Prop
  | [a] => a ≤ 0x7F
  | [a, b] => 0xC2 ≤ a ∧ a ≤ 0xDF ∧ IsSecond a b
  | [a, b, c] => 0xE0 ≤ a ∧ a ≤ 0xEF ∧ IsSecond a b ∧ IsTail c
  | [a, b, c, d] => 0xF0 ≤ a ∧ a ≤ 0xF4 ∧ IsSecond a b ∧ IsTail c ∧ IsTail d
  | _ => False

instance : DecidablePred IsChar
  | [] => isFalse id
  | [a] => inferInstanceAs (Decidable (a ≤ 0x7F))
  | [a, b] => inferInstanceAs (Decidable (0xC2 ≤ a ∧ a ≤ 0xDF ∧ IsSecond a b))
  | [a, b, c] => inferInstanceAs (Decidable (0xE0 ≤ a ∧ a ≤ 0xEF ∧ IsSecond a b ∧ IsTail c))
  | [a, b, c, d] =>
      inferInstanceAs (Decidable (0xF0 ≤ a ∧ a ≤ 0xF4 ∧ IsSecond a b ∧ IsTail c ∧ IsTail d))
  | _ :: _ :: _ :: _ :: _ :: _ => isFalse id

/-- A sequence of characters. -/
inductive WellFormed : Bytes → Prop
  | nil : WellFormed []
  | cons {c s : Bytes} : IsChar c → WellFormed s → WellFormed (c ++ s)

/-- The length of the character at the head of a buffer, `0` when there is none. -/
def headLen (s : Bytes) : ℕ :=
  if IsChar (s.take 1) then 1
  else if IsChar (s.take 2) then 2
  else if IsChar (s.take 3) then 3
  else if IsChar (s.take 4) then 4
  else 0

/-- A character has at least one byte. -/
theorem IsChar.ne_nil {c : Bytes} (h : IsChar c) : c ≠ [] := by
  rintro rfl
  exact h

/-- A character has one of four shapes. -/
theorem IsChar.cases {c : Bytes} (h : IsChar c) :
    (∃ a, c = [a] ∧ a ≤ 0x7F) ∨ (∃ a b, c = [a, b] ∧ 0xC2 ≤ a ∧ a ≤ 0xDF ∧ IsSecond a b) ∨
      (∃ a b d, c = [a, b, d] ∧ 0xE0 ≤ a ∧ a ≤ 0xEF ∧ IsSecond a b ∧ IsTail d) ∨
      ∃ a b d e, c = [a, b, d, e] ∧ 0xF0 ≤ a ∧ a ≤ 0xF4 ∧ IsSecond a b ∧ IsTail d ∧ IsTail e := by
  rcases c with _ | ⟨a, _ | ⟨b, _ | ⟨d, _ | ⟨e, _ | _⟩⟩⟩⟩
  · exact h.elim
  · exact Or.inl ⟨a, rfl, h⟩
  · exact Or.inr (Or.inl ⟨a, b, rfl, h⟩)
  · exact Or.inr (Or.inr (Or.inl ⟨a, b, d, rfl, h⟩))
  · exact Or.inr (Or.inr (Or.inr ⟨a, b, d, e, rfl, h⟩))
  · exact h.elim

/-- What is measured is a character. -/
theorem isChar_take_headLen {s : Bytes} (h : 0 < headLen s) : IsChar (s.take (headLen s)) := by
  unfold headLen at h ⊢
  split_ifs at h ⊢ with h1 h2 h3 h4
  · exact h1
  · exact h2
  · exact h3
  · exact h4
  · exact absurd h (lt_irrefl 0)

/-- The lead byte decides the length, so no proper prefix of a character is one. -/
theorem IsChar.headLen_append {c : Bytes} (h : IsChar c) (s : Bytes) :
    headLen (c ++ s) = c.length := by
  match c, h with
  | [a], h => simp [headLen, h]
  | [a, b], h =>
      have h1 : ¬IsChar [a] := by simp only [IsChar] at h ⊢; grind
      simp [headLen, h, h1]
  | [a, b, c], h =>
      have h1 : ¬IsChar [a] := by simp only [IsChar] at h ⊢; grind
      have h2 : ¬IsChar [a, b] := by simp only [IsChar] at h ⊢; grind
      simp [headLen, h, h1, h2]
  | [a, b, c, d], h =>
      have h1 : ¬IsChar [a] := by simp only [IsChar] at h ⊢; grind
      have h2 : ¬IsChar [a, b] := by simp only [IsChar] at h ⊢; grind
      have h3 : ¬IsChar [a, b, c] := by simp only [IsChar] at h ⊢; grind
      simp [headLen, h, h1, h2, h3]

/-- The character in front decides: a text is well formed exactly when one stands at its
head and the rest is well formed. -/
theorem wellFormed_iff_headLen {s : Bytes} (hs : s ≠ []) :
    WellFormed s ↔ 0 < headLen s ∧ WellFormed (s.drop (headLen s)) := by
  constructor
  · intro h
    cases h with
    | nil => exact absurd rfl hs
    | cons hc hrest =>
        rw [hc.headLen_append]
        exact ⟨List.length_pos_iff.mpr hc.ne_nil, by simpa using hrest⟩
  · rintro ⟨hpos, hrest⟩
    have := WellFormed.cons (isChar_take_headLen hpos) hrest
    rwa [List.take_append_drop] at this

/-- Cancelling one character. -/
theorem IsChar.wellFormed_append_iff {c : Bytes} (h : IsChar c) (s : Bytes) :
    WellFormed (c ++ s) ↔ WellFormed s := by
  have hne : c ++ s ≠ [] := by simp [h.ne_nil]
  rw [wellFormed_iff_headLen hne, h.headLen_append]
  simp [List.length_pos_iff, h.ne_nil]

/-- A well-formed front can be cancelled. -/
theorem wellFormed_append_iff {s t : Bytes} (h : WellFormed s) :
    WellFormed (s ++ t) ↔ WellFormed t := by
  induction h with
  | nil => rfl
  | cons hc _ ih => rw [List.append_assoc, hc.wellFormed_append_iff, ih]

/-- Behind its first byte a character holds continuation bytes only. -/
theorem IsChar.isTail_of_append {p c : Bytes} {b : UInt8} (h : IsChar (p ++ b :: c))
    (hp : p ≠ []) : IsTail b := by
  match p, hp with
  | [a], _ =>
      match c, h with
      | [], h => exact h.2.2.1
      | [_], h => exact h.2.2.1.1
      | [_, _], h => exact h.2.2.1.1
  | [a, a'], _ =>
      match c, h with
      | [], h => exact h.2.2.2
      | [_], h => exact h.2.2.2.1
  | [a, a', a''], _ =>
      match c, h with
      | [], h => exact h.2.2.2.2
  | _ :: _ :: _ :: _ :: p, _ => cases p <;> exact h.elim

/-- A multi-byte character has no ASCII byte. -/
theorem IsChar.high {a : UInt8} {c : Bytes} (h : IsChar (a :: c)) (ha : 0x80 ≤ a) :
    ∀ b ∈ a :: c, 0x80 ≤ b := by
  refine List.forall_mem_cons.mpr ⟨ha, fun b hb => ?_⟩
  obtain ⟨c₁, c₂, rfl⟩ := List.append_of_mem hb
  exact (isTail_of_append (p := a :: c₁) h (by simp)).1

/-- A character starts with a byte that continues none. -/
theorem IsChar.not_isTail_head {b : UInt8} {c : Bytes} (h : IsChar (b :: c)) : ¬IsTail b := by
  match c, h with
  | [], h => simp only [IsChar, IsTail] at h ⊢; grind
  | [_], h => simp only [IsChar, IsTail] at h ⊢; grind
  | [_, _], h => simp only [IsChar, IsTail] at h ⊢; grind
  | [_, _, _], h => simp only [IsChar, IsTail] at h ⊢; grind

/-- What stands before a byte that continues no character is well formed by itself. -/
theorem WellFormed.of_append_cons {s t : Bytes} {b : UInt8} (hb : ¬IsTail b)
    (h : WellFormed (s ++ b :: t)) : WellFormed s := by
  induction hn : s.length using Nat.strong_induction_on generalizing s with
  | h n ih =>
      cases s with
      | nil => exact WellFormed.nil
      | cons a s =>
          generalize hw : (a :: s) ++ b :: t = w at h
          cases h with
          | nil => simp at hw
          | @cons c u hc hu =>
              rcases List.append_eq_append_iff.mp hw with ⟨r, rfl, hr⟩ | ⟨r, hs, rfl⟩
              · -- the first character ends behind the split: impossible unless it ends at it
                cases r with
                | nil => simpa using WellFormed.cons hc WellFormed.nil
                | cons d r =>
                    obtain ⟨rfl, -⟩ := List.cons.inj hr
                    exact absurd (hc.isTail_of_append (by simp)) hb
              · rw [hs]
                refine WellFormed.cons hc (ih r.length ?_ hu rfl)
                have hlen := congrArg List.length hs
                have hpos := List.length_pos_iff.mpr hc.ne_nil
                rw [List.length_append] at hlen
                omega

/-- A character in the middle splits a text into two. -/
theorem wellFormed_append_char_iff {s c t : Bytes} (hc : IsChar c) :
    WellFormed (s ++ (c ++ t)) ↔ WellFormed s ∧ WellFormed t := by
  constructor
  · intro h
    obtain ⟨b, c', rfl⟩ := List.exists_cons_of_ne_nil hc.ne_nil
    have hs : WellFormed s := WellFormed.of_append_cons hc.not_isTail_head h
    rw [wellFormed_append_iff hs, hc.wellFormed_append_iff] at h
    exact ⟨hs, h⟩
  · rintro ⟨hs, ht⟩
    rwa [wellFormed_append_iff hs, hc.wellFormed_append_iff]

/-! ### Bit masks

Checks in C recognise lead and continuation bytes by their upper bits. -/

/-- A byte of the form `10xxxxxx`. -/
def isCont (b : UInt8) : Bool := b &&& 0xC0 = 0x80

theorem isCont_iff : ∀ b : UInt8, isCont b = true ↔ IsTail b := by
  decide +kernel

/-- The masks of the lead bytes, as ranges. -/
theorem lead_masks : ∀ a : UInt8, (a &&& 0xE0 = 0xC0 ↔ 0xC0 ≤ a ∧ a ≤ 0xDF) ∧
    (a &&& 0xF0 = 0xE0 ↔ 0xE0 ≤ a ∧ a ≤ 0xEF) ∧ (a &&& 0xF8 = 0xF0 ↔ 0xF0 ≤ a ∧ a ≤ 0xF7) := by
  decide +kernel

/-- Decide well-formedness by stripping characters. -/
def check : ℕ → Bytes → Bool
  | _, [] => true
  | 0, _ :: _ => false
  | n + 1, b :: s =>
      0 < headLen (b :: s) && check n ((b :: s).drop (headLen (b :: s)))

theorem check_iff {n : ℕ} {s : Bytes} (h : s.length ≤ n) : check n s = true ↔ WellFormed s := by
  induction n generalizing s with
  | zero =>
      obtain rfl : s = [] := List.length_eq_zero_iff.mp (Nat.le_zero.mp h)
      simp [check, WellFormed.nil]
  | succ n ih =>
      cases s with
      | nil => simp [check, WellFormed.nil]
      | cons a s =>
          rw [wellFormed_iff_headLen (by simp), check, Bool.and_eq_true, decide_eq_true_eq]
          refine and_congr_right fun hpos => ih ?_
          rw [List.length_drop]
          simp only [List.length_cons] at h ⊢
          omega

instance : DecidablePred WellFormed := fun s => decidable_of_iff _ (check_iff (le_refl s.length))

end Utf8
