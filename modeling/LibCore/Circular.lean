import Mathlib.Data.Nat.ModEq
import Mathlib.Tactic

/-!
# Queues in a Circular Array

A list of elements that lies in an array of fixed length, from a start index on and around its end. The slots
behind the last element are empty. Nothing here names a program.

## Main definitions

* `Window`: the slots from a start index on hold the elements of a list, and the others are empty.

## Main results

* `Window.push`, `Window.pop`: writing behind the last element, and clearing the first one.
-/

namespace Circular

variable {α : Type} {slots : List (Option α)} {start : ℕ} {q : List α}

/-- The slots from `start` on, around the end of the array, hold `q` and nothing else. -/
def Window (slots : List (Option α)) (start : ℕ) (q : List α) : Prop :=
  ∀ i < slots.length, slots[(start + i) % slots.length]? = some q[i]?

/-- Within one turn every offset has a slot of its own. -/
theorem add_mod_inj {start i j n : ℕ} (hi : i < n) (hj : j < n) :
    (start + i) % n = (start + j) % n ↔ i = j := by
  refine ⟨fun h => ?_, fun h => by rw [h]⟩
  exact Nat.ModEq.eq_of_lt_of_lt (Nat.ModEq.add_left_cancel' start h) hi hj

/-- An array of empty slots holds nothing. -/
theorem Window.replicate (n start : ℕ) : Window (List.replicate n (none : Option α)) start [] := by
  intro i hi
  rw [List.length_replicate] at hi ⊢
  rw [List.getElem?_replicate, if_pos (Nat.mod_lt _ (by omega)), List.getElem?_nil]

/-- The slot behind the last element takes another one. -/
theorem Window.push (h : Window slots start q) (hlt : q.length < slots.length) (x : α) :
    Window (slots.set ((start + q.length) % slots.length) (some x)) start (q ++ [x]) := by
  intro i hi
  rw [List.length_set] at hi ⊢
  rw [List.getElem?_set, if_congr (add_mod_inj hlt hi) rfl rfl]
  by_cases hiq : q.length = i
  · rw [if_pos hiq, if_pos (Nat.mod_lt _ (by omega)), ← hiq, List.getElem?_append_right le_rfl, Nat.sub_self,
      List.getElem?_cons_zero]
  · rw [if_neg hiq, h i hi]
    by_cases hlast : i < q.length
    · rw [List.getElem?_append_left hlast]
    · rw [List.getElem?_append_right (by omega), List.getElem?_eq_none (by omega),
        List.getElem?_eq_none (by simp only [List.length_singleton]; omega)]

/-- The first element. -/
theorem Window.head {x : α} (h : Window slots start (x :: q)) (hstart : start < slots.length) :
    slots[start]? = some (some x) := by
  have hfirst := h 0 (by omega)
  rwa [Nat.add_zero, Nat.mod_eq_of_lt hstart, List.getElem?_cons_zero] at hfirst

/-- Without its first element the list starts at the next slot. -/
theorem Window.pop {x : α} (h : Window slots start (x :: q)) (hstart : start < slots.length)
    (hlen : q.length < slots.length) :
    Window (slots.set start none) ((start + 1) % slots.length) q := by
  intro i hi
  rw [List.length_set] at hi ⊢
  have hindex : ((start + 1) % slots.length + i) % slots.length = (start + (i + 1)) % slots.length := by
    rw [Nat.mod_add_mod]
    congr 1
    omega
  have hfirst : (start + 0) % slots.length = start := Nat.mod_eq_of_lt hstart
  rw [hindex, List.getElem?_set]
  by_cases hlast : i + 1 < slots.length
  · have hother : start ≠ (start + (i + 1)) % slots.length := fun heq =>
      absurd ((add_mod_inj (by omega) hlast).mp (hfirst.trans heq)) (by omega)
    rw [if_neg hother, h (i + 1) hlast, List.getElem?_cons_succ]
  · have hturn : i + 1 = slots.length := by omega
    rw [hturn, Nat.add_mod_right, Nat.mod_eq_of_lt hstart, if_pos rfl, if_pos hstart,
      List.getElem?_eq_none (by omega)]

end Circular
