import Mathlib.Data.List.Infix
import Mathlib.Tactic

/-!
# Occurrences of a Text

A text over any alphabet, cut at the leftmost occurrences of a target that do not overlap: the first
occurrence, then the first one behind it, and so on. The target between the pieces gives the text back, and
another text between them is the text with the occurrences replaced.

## Main results

* `Cut.intercalate_eq`, `Cut.unique`: the pieces make up the text, and there is one way to cut it.
* `Cut.of_prefix`, `Cut.of_not_prefix`: what a scan of the text finds at each place.
* `length_intercalate`: the length of a text that is put together from pieces.
-/

namespace Occurrences

variable {α : Type*}

/-- The target occurs at the place, and not before it. -/
def FirstAt (target s : List α) (i : ℕ) : Prop := target <+: s.drop i ∧ ∀ j < i, ¬target <+: s.drop j

/-- The pieces of a text between the leftmost occurrences of the target that do not overlap. -/
inductive Cut (target : List α) : List α → List (List α) → Prop
  | last {s : List α} (h : ¬target <:+: s) : Cut target s [s]
  | next {s : List α} {i : ℕ} {parts : List (List α)} (h : FirstAt target s i)
      (hcut : Cut target (s.drop (i + target.length)) parts) : Cut target s (s.take i :: parts)

variable {target s t : List α} {parts : List (List α)} {c : α} {i j : ℕ}

theorem infix_iff_exists_prefix_drop : target <:+: s ↔ ∃ i, target <+: s.drop i := by
  constructor
  · rintro ⟨l, r, rfl⟩
    refine ⟨l.length, r, ?_⟩
    rw [List.append_assoc, List.drop_left]
  · rintro ⟨i, h⟩
    exact h.isInfix.trans (List.drop_suffix i s).isInfix

/-- What occurs somewhere has a first occurrence. -/
theorem exists_firstAt (h : target <:+: s) : ∃ i, FirstAt target s i := by
  classical
  have hsome := infix_iff_exists_prefix_drop.mp h
  exact ⟨Nat.find hsome, Nat.find_spec hsome, fun j hj => Nat.find_min hsome hj⟩

theorem FirstAt.isInfix (h : FirstAt target s i) : target <:+: s :=
    infix_iff_exists_prefix_drop.mpr ⟨i, h.1⟩

theorem FirstAt.unique (h : FirstAt target s i) (h' : FirstAt target s j) : i = j := by
  rcases lt_trichotomy i j with hlt | heq | hlt
  · exact absurd h.1 (h'.2 i hlt)
  · exact heq
  · exact absurd h'.1 (h.2 j hlt)

/-- A first occurrence and what is behind it make up the rest of the text. -/
theorem FirstAt.append_drop (h : FirstAt target s i) : target ++ s.drop (i + target.length) = s.drop i := by
  rw [← List.drop_drop]
  exact (List.prefix_append_drop h.1).symm

theorem Cut.ne_nil (h : Cut target s parts) : parts ≠ [] := by
  cases h <;> exact List.cons_ne_nil _ _

/-- **The pieces make up the text** -/
theorem Cut.intercalate_eq (h : Cut target s parts) : target.intercalate parts = s := by
  induction h with
  | last h => exact List.intercalate_singleton ..
  | @next s i parts h hcut ih =>
      rw [List.intercalate_cons_of_ne_nil hcut.ne_nil, ih, List.append_assoc, h.append_drop,
        List.take_append_drop]

/-- **There is one way to cut** a text. -/
theorem Cut.unique {parts' : List (List α)} (h : Cut target s parts) (h' : Cut target s parts') :
    parts = parts' := by
  induction h generalizing parts' with
  | last h =>
      cases h' with
      | last => rfl
      | next h₁ => exact absurd h₁.isInfix h
  | next h hcut ih =>
      cases h' with
      | last h₁ => exact absurd h.isInfix h₁
      | next h₁ hcut₁ =>
          obtain rfl := h.unique h₁
          rw [ih hcut₁]

theorem exists_cut (hne : target ≠ []) (s : List α) : ∃ parts, Cut target s parts := by
  induction hlen : s.length using Nat.strong_induction_on generalizing s with
  | _ n ih =>
      by_cases h : target <:+: s
      · obtain ⟨i, hi⟩ := exists_firstAt h
        have hpos := List.length_pos_iff.mpr hne
        have hle := hi.1.length_le
        rw [List.length_drop] at hle
        obtain ⟨parts, hparts⟩ := ih (s.drop (i + target.length)).length
          (by rw [List.length_drop, ← hlen]; omega) _ rfl
        exact ⟨_, .next hi hparts⟩
      · exact ⟨_, .last h⟩

/-- At an occurrence a piece is empty, and the scan goes on behind the occurrence. -/
theorem Cut.of_prefix (h : Cut target s parts) (hstart : target <+: s) :
    ∃ rest, parts = [] :: rest ∧ Cut target (s.drop target.length) rest := by
  cases h with
  | last h => exact absurd hstart.isInfix h
  | next h hcut =>
      have hzero : FirstAt target s 0 := ⟨hstart, fun j hj => absurd hj (Nat.not_lt_zero j)⟩
      obtain rfl := h.unique hzero
      rw [Nat.zero_add] at hcut
      exact ⟨_, rfl, hcut⟩

/-- Elsewhere the symbol is one of the piece. -/
theorem Cut.of_not_prefix (h : Cut target (c :: s) parts) (hstart : ¬target <+: c :: s) :
    ∃ piece rest, parts = (c :: piece) :: rest ∧ Cut target s (piece :: rest) := by
  cases h with
  | last h => exact ⟨s, [], rfl, .last fun hs => h (hs.trans (List.suffix_cons c s).isInfix)⟩
  | @next _ i parts h hcut =>
      cases i with
      | zero => exact absurd h.1 hstart
      | succ i =>
          rw [Nat.add_right_comm, List.drop_succ_cons] at hcut
          exact ⟨_, _, rfl, .next ⟨h.1, fun j hj => h.2 (j + 1) (Nat.succ_lt_succ hj)⟩ hcut⟩

/-- The length of a text that is put together from pieces. -/
theorem length_intercalate (sep : List α) (hne : parts ≠ []) :
    (sep.intercalate parts).length = (parts.map List.length).sum + (parts.length - 1) * sep.length := by
  induction parts with
  | nil => exact absurd rfl hne
  | cons piece parts ih =>
      by_cases hparts : parts = []
      · subst hparts
        simp
      · have hpos := List.length_pos_iff.mpr hparts
        have hmul : (parts.length + 1 - 1) * sep.length = (parts.length - 1) * sep.length + sep.length := by
          rw [← Nat.succ_mul]
          congr 1
          omega
        rw [List.intercalate_cons_of_ne_nil hparts, List.length_append, List.length_append, ih hparts,
          List.map_cons,
          List.sum_cons, List.length_cons, hmul]
        omega

end Occurrences
