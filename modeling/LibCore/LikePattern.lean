import Mathlib.Data.List.Infix
import Mathlib.Tactic.Common

/-!
# Patterns With an Escape Character

Patterns over any alphabet in which one symbol stands for any text, one for any single symbol, and one takes
the meaning from the symbol behind it: `LIKE` with an `ESCAPE` clause. Escaping puts that symbol before every
one of the three.

## Main results

* `matches_escape_append`: an escaped text matches itself and nothing else, whatever is around it.
* `matches_contains_iff`: an escaped text between two marks for any text matches what contains it.
-/

/-- The symbols with a meaning. -/
structure Wildcards (α : Type*) where
  /-- Stands for any text. -/
  many : α
  /-- Stands for one symbol. -/
  one : α
  /-- The symbol behind it stands for itself. -/
  escape : α
  many_ne_one : many ≠ one
  many_ne_escape : many ≠ escape
  one_ne_escape : one ≠ escape

namespace Wildcards

variable {α : Type*} (w : Wildcards α)

/-- The symbol has a meaning. -/
def IsMeta (c : α) : Prop := c = w.escape ∨ c = w.many ∨ c = w.one

instance [DecidableEq α] : DecidablePred w.IsMeta := fun _ => inferInstanceAs (Decidable (_ ∨ _ ∨ _))

/-- The pattern matches the text. -/
inductive Matches : List α → List α → Prop
  | nil : Matches [] []
  | many (l : List α) {p r : List α} (h : Matches p r) : Matches (w.many :: p) (l ++ r)
  | one (c : α) {p r : List α} (h : Matches p r) : Matches (w.one :: p) (c :: r)
  | escape (c : α) {p r : List α} (h : Matches p r) : Matches (w.escape :: c :: p) (c :: r)
  | plain {c : α} (hc : ¬w.IsMeta c) {p r : List α} (h : Matches p r) : Matches (c :: p) (c :: r)

/-- The text, with every symbol that has a meaning escaped. -/
def escapeText [DecidableEq α] (s : List α) : List α := s.flatMap fun c =>
    if w.IsMeta c then [w.escape, c] else [c]

variable {w} {p s t : List α} {c : α}

theorem matches_many_iff : w.Matches (w.many :: p) t ↔ ∃ l r, t = l ++ r ∧ w.Matches p r := by
  constructor
  · generalize hq : w.many :: p = q
    rintro (_ | ⟨l, h⟩ | ⟨c, h⟩ | ⟨c, h⟩ | ⟨hc, h⟩)
    · cases hq
    · obtain rfl := (List.cons.inj hq).2
      exact ⟨l, _, rfl, h⟩
    · exact absurd (List.cons.inj hq).1 w.many_ne_one
    · exact absurd (List.cons.inj hq).1 w.many_ne_escape
    · exact absurd (.inr (.inl (List.cons.inj hq).1.symm)) hc
  · rintro ⟨l, r, rfl, h⟩
    exact .many l h

theorem matches_escape_iff : w.Matches (w.escape :: c :: p) t ↔ ∃ r, t = c :: r ∧ w.Matches p r := by
  constructor
  · generalize hq : w.escape :: c :: p = q
    rintro (_ | ⟨l, h⟩ | ⟨d, h⟩ | ⟨d, h⟩ | ⟨hd, h⟩)
    · cases hq
    · exact absurd (List.cons.inj hq).1.symm w.many_ne_escape
    · exact absurd (List.cons.inj hq).1.symm w.one_ne_escape
    · obtain ⟨rfl, rfl⟩ := List.cons.inj (List.cons.inj hq).2
      exact ⟨_, rfl, h⟩
    · exact absurd (.inl (List.cons.inj hq).1.symm) hd
  · rintro ⟨r, rfl, h⟩
    exact .escape c h

theorem matches_plain_iff (hc : ¬w.IsMeta c) : w.Matches (c :: p) t ↔ ∃ r, t = c :: r ∧ w.Matches p r := by
  constructor
  · generalize hq : c :: p = q
    rintro (_ | ⟨l, h⟩ | ⟨d, h⟩ | ⟨d, h⟩ | ⟨hd, h⟩)
    · cases hq
    · exact absurd (.inr (.inl (List.cons.inj hq).1)) hc
    · exact absurd (.inr (.inr (List.cons.inj hq).1)) hc
    · exact absurd (.inl (List.cons.inj hq).1) hc
    · obtain ⟨rfl, rfl⟩ := List.cons.inj hq
      exact ⟨_, rfl, h⟩
  · rintro ⟨r, rfl, h⟩
    exact .plain hc h

variable [DecidableEq α]

theorem escapeText_cons : w.escapeText (c :: s) = (if w.IsMeta c then [w.escape, c] else [c]) ++
    w.escapeText s :=
  List.flatMap_cons

/-- An escaped symbol matches itself. -/
theorem matches_escape_cons :
    w.Matches ((if w.IsMeta c then [w.escape, c] else [c]) ++ p) t ↔ ∃ r, t = c :: r ∧ w.Matches p r := by
  split_ifs with hc
  · exact matches_escape_iff
  · exact matches_plain_iff hc

/-- **An escaped text matches itself** and nothing else. -/
theorem matches_escape_append : w.Matches (w.escapeText s ++ p) t ↔ ∃ r, t = s ++ r ∧ w.Matches p r := by
  induction s generalizing t with
  | nil => simp [escapeText]
  | cons c s ih =>
      rw [escapeText_cons, List.append_assoc, matches_escape_cons]
      constructor
      · rintro ⟨r, rfl, h⟩
        obtain ⟨r', rfl, h'⟩ := ih.mp h
        exact ⟨r', rfl, h'⟩
      · rintro ⟨r, rfl, h⟩
        exact ⟨s ++ r, rfl, ih.mpr ⟨r, rfl, h⟩⟩

/-- **An escaped text with any text around it** matches what contains the text. -/
theorem matches_contains_iff : w.Matches (w.many :: (w.escapeText s ++ [w.many])) t ↔ s <:+: t := by
  rw [matches_many_iff]
  constructor
  · rintro ⟨l, r, rfl, h⟩
    obtain ⟨r', rfl, -⟩ := matches_escape_append.mp h
    exact ⟨l, r', List.append_assoc l s r'⟩
  · rintro ⟨l, r, rfl⟩
    refine ⟨l, s ++ r, List.append_assoc l s r, matches_escape_append.mpr ⟨r, rfl, ?_⟩⟩
    exact matches_many_iff.mpr ⟨r, [], (List.append_nil r).symm, .nil⟩

/-- Escaping at most doubles a text. -/
theorem length_escapeText_le : (w.escapeText s).length ≤ 2 * s.length := by
  induction s with
  | nil => exact le_rfl
  | cons c s ih =>
      rw [escapeText_cons, List.length_append, List.length_cons]
      split_ifs <;> simp only [List.length_cons, List.length_nil] <;> omega

end Wildcards
