import Mathlib.Data.List.Basic
import Mathlib.Tactic

/-!
# Streams in Chunks

A generator turns a state into a chunk of elements and the next state. Asked again and again it
makes one infinite stream; a program that extends a list by a chunk whenever it runs short holds
a prefix of it, however often it was asked and by whom.

## Main definitions

* `chunks`: the first chunks of a generator, and the state behind them.
* `entry`: the stream.

## Main results

* `prefix_chunks`: more chunks extend fewer.
* `entry_of_chunks`: what any number of chunks holds at a place is the stream there.
-/

namespace Chunks

variable {σ α : Type*}

/-- The first `m` chunks of a generator, one after another, and the state behind them. -/
def chunks (gen : σ → List α × σ) (s : σ) : ℕ → List α × σ
  | 0 => ([], s)
  | m + 1 => ((chunks gen s m).1 ++ (gen (chunks gen s m).2).1, (gen (chunks gen s m).2).2)

/-- The stream of a generator. -/
def entry (gen : σ → List α × σ) (s : σ) (k : ℕ) : Option α := (chunks gen s (k + 1)).1[k]?

variable {gen : σ → List α × σ} {s : σ}

theorem prefix_chunks {m n : ℕ} (h : m ≤ n) : (chunks gen s m).1 <+: (chunks gen s n).1 := by
  induction n, h using Nat.le_induction with
  | base => exact List.prefix_rfl
  | succ n _ ih => exact ih.trans (List.prefix_append _ _)

/-- Chunks that are not empty make a list at least as long as their number. -/
theorem le_length_chunks (hgen : ∀ s, (gen s).1 ≠ []) (m : ℕ) : m ≤ (chunks gen s m).1.length := by
  induction m with
  | zero => exact Nat.zero_le _
  | succ m ih =>
      have hpos : 0 < (gen (chunks gen s m).2).1.length := List.length_pos_iff.mpr (hgen _)
      rw [chunks, List.length_append]
      omega

theorem getElem?_of_prefix {l l' : List α} (h : l <+: l') {k : ℕ} {a : α} (hk : l[k]? = some a) :
    l'[k]? = some a := by
  obtain ⟨hlt, rfl⟩ := List.getElem?_eq_some_iff.mp hk
  exact List.prefix_iff_getElem?.mp h k hlt

/-- **Every prefix reads the same stream.** -/
theorem entry_of_chunks (hgen : ∀ s, (gen s).1 ≠ []) {m k : ℕ} {a : α}
    (h : (chunks gen s m).1[k]? = some a) : entry gen s k = some a := by
  have hk : k < (chunks gen s (k + 1)).1.length := le_length_chunks hgen (k + 1)
  rcases Nat.le_total m (k + 1) with hle | hle
  · exact getElem?_of_prefix (prefix_chunks hle) h
  · obtain ⟨b, hb⟩ : ∃ b, entry gen s k = some b := ⟨_, List.getElem?_eq_getElem hk⟩
    have hb' := getElem?_of_prefix (prefix_chunks hle) hb
    rw [hb, ← hb', h]

end Chunks
