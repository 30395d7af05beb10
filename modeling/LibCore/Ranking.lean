import Mathlib.Order.Defs.LinearOrder
import Mathlib.Tactic

/-!
# Ranking

An exchange sort with any test for an exchange, and the ranks of a competition, in which equal
grades share the better rank.

## Main results

* `exchangeSort_perm`, `exchangeSort_sorted`: the sort keeps the elements and puts them in the
  order of a key, if the test compares the keys.
* `rankOf_append`: the rank of a grade in a sorted list is the place where it occurs first.
-/

namespace Ranking

variable {α κ γ : Type*}

/-! ### The exchange sort -/

/-- One pass: the element at the front is exchanged with later ones. -/
def select (swap : α → α → Bool) : α → List α → α × List α
  | e, [] => (e, [])
  | e, x :: xs =>
      if swap e x then ((select swap x xs).1, e :: (select swap x xs).2)
      else ((select swap e xs).1, x :: (select swap e xs).2)

/-- The passes of the sort, for at most `n` elements. -/
def exchangeSort (swap : α → α → Bool) : ℕ → List α → List α
  | 0, es => es
  | _ + 1, [] => []
  | n + 1, e :: es => (select swap e es).1 :: exchangeSort swap n (select swap e es).2

/-- A pass keeps the elements. -/
theorem select_perm (swap : α → α → Bool) (e : α) (xs : List α) :
    ((select swap e xs).1 :: (select swap e xs).2).Perm (e :: xs) := by
  induction xs generalizing e with
  | nil => exact .refl _
  | cons x xs ih =>
      rw [select]
      split_ifs
      · exact (List.Perm.swap ..).trans ((ih x).cons e)
      · exact (List.Perm.swap ..).trans (((ih e).cons x).trans (.swap ..))

theorem exchangeSort_perm (swap : α → α → Bool) (n : ℕ) (es : List α) :
    (exchangeSort swap n es).Perm es := by
  induction n generalizing es with
  | zero => exact .refl _
  | succ n ih =>
      cases es with
      | nil => exact .refl _
      | cons e es => exact ((ih _).cons _).trans (select_perm swap e es)

section Sorted

variable [LinearOrder κ] {swap : α → α → Bool} {key : α → κ} {P : α → Prop}

/-- The front of a pass is a least element. -/
theorem select_le (hswap : ∀ a b, P a → P b → (swap a b = true ↔ key b < key a)) {e : α}
    {xs : List α} (he : P e) (hxs : ∀ x ∈ xs, P x) :
    key (select swap e xs).1 ≤ key e ∧ ∀ y ∈ xs, key (select swap e xs).1 ≤ key y := by
  induction xs generalizing e with
  | nil => exact ⟨le_rfl, by simp⟩
  | cons x xs ih =>
      have hx : P x := hxs x List.mem_cons_self
      have hrest : ∀ y ∈ xs, P y := fun y hy => hxs y (List.mem_cons_of_mem x hy)
      rw [select]
      split_ifs with hexchange
      · obtain ⟨hle, hall⟩ := ih hx hrest
        have hlt : key x < key e := (hswap e x he hx).mp hexchange
        refine ⟨hle.trans hlt.le, fun y hy => ?_⟩
        rcases List.mem_cons.mp hy with rfl | hy
        · exact hle
        · exact hall y hy
      · obtain ⟨hle, hall⟩ := ih he hrest
        have hge : key e ≤ key x := not_lt.mp fun hlt => hexchange ((hswap e x he hx).mpr hlt)
        refine ⟨hle, fun y hy => ?_⟩
        rcases List.mem_cons.mp hy with rfl | hy
        · exact hle.trans hge
        · exact hall y hy

/-- **The sort sorts** by a key, if the test for an exchange compares the keys. -/
theorem exchangeSort_sorted (hswap : ∀ a b, P a → P b → (swap a b = true ↔ key b < key a)) {n : ℕ}
    {es : List α} (hes : ∀ e ∈ es, P e) (hlen : es.length ≤ n) :
    (exchangeSort swap n es).Pairwise fun a b => key a ≤ key b := by
  induction n generalizing es with
  | zero =>
      obtain rfl := List.eq_nil_of_length_eq_zero (Nat.le_zero.mp hlen)
      exact .nil
  | succ n ih =>
      cases es with
      | nil => exact .nil
      | cons e es =>
          have hperm := select_perm swap e es
          have hlength : (select swap e es).2.length = es.length := by
            simpa using hperm.length_eq
          have hP : ∀ y ∈ (select swap e es).2, P y := fun y hy =>
            hes y (hperm.mem_iff.mp (List.mem_cons_of_mem _ hy))
          have hfront := select_le hswap (hes e List.mem_cons_self) fun x hx =>
            hes x (List.mem_cons_of_mem e hx)
          refine List.pairwise_cons.mpr ⟨fun y hy => ?_, ih hP ?_⟩
          · have hmem : y ∈ e :: es := hperm.mem_iff.mp
              (List.mem_cons_of_mem _ ((exchangeSort_perm swap n _).mem_iff.mp hy))
            rcases List.mem_cons.mp hmem with rfl | hmem
            · exact hfront.1
            · exact hfront.2 y hmem
          · rw [hlength]
            exact Nat.le_of_succ_le_succ hlen

end Sorted

/-! ### Ranks -/

section Ranks

variable [LinearOrder γ]

/-- The rank of a grade among others: one plus the number of better ones. -/
def rankOf (grades : List γ) (g : γ) : ℕ := 1 + grades.countP fun x => decide (g < x)

/-- The rank of a grade that is below all earlier ones and not below any later one. -/
theorem rankOf_append {before after : List γ} {g : γ} (hbefore : ∀ x ∈ before, g < x)
    (hafter : ∀ x ∈ after, x ≤ g) : rankOf (before ++ after) g = before.length + 1 := by
  have hall : before.countP (fun x => decide (g < x)) = before.length :=
    List.countP_eq_length.mpr fun x hx => decide_eq_true (hbefore x hx)
  have hnone : after.countP (fun x => decide (g < x)) = 0 :=
    List.countP_eq_zero.mpr fun x hx => by simpa using hafter x hx
  rw [rankOf, List.countP_append, hall, hnone]
  omega

end Ranks

end Ranking
