import Mathlib.Tactic

/-!
# `ArrayList` and `Queue`

The growing array of `arraylist.c`, and the queue of `queue.c` that appends to it and detaches its first
element. Slots that have not been written yet hold nothing that is read; they are NULL here.

## Main definitions

* `ArrayList`, `ensureCapacity`, `add`, `detach`: the array.
* `Represents`: the list an array holds.

## Main results

* `getElem?_shiftFrom`: what the loop that closes the hole does.
* `Represents.add`, `Represents.detach`: appending and taking out the first element.
-/

variable {α : Type}

/-- The array; `size` slots of `capacity` are in use. -/
structure ArrayList (α : Type) where
  items : List (Option α)
  size : ℕ
  capacity : ℕ

namespace ArrayList

/-- The greatest `int`. -/
def intMax : ℕ := 2 ^ 31 - 1

/-- `new_ArrayList`. -/
def new (initialCapacity : ℕ) : ArrayList α where
  items := List.replicate (if initialCapacity = 0 then 10 else initialCapacity) none
  size := 0
  capacity := if initialCapacity = 0 then 10 else initialCapacity

/-- `new_cap`. -/
def newCap (capacity minCapacity : ℕ) : ℕ := if capacity * 2 < minCapacity then minCapacity else capacity * 2

/-- `impl_ensureCapacity_internal`. `alloc` says which capacities can be allocated; one that is no `int` is none
of them. -/
def ensureCapacity (alloc : ℕ → Bool) (l : ArrayList α) (minCapacity : ℕ) : Bool × ArrayList α :=
  if minCapacity ≤ l.capacity then (true, l)
  else if newCap l.capacity minCapacity ≤ intMax ∧ alloc (newCap l.capacity minCapacity) = true then
    (true, { l with
      items := l.items ++ List.replicate (newCap l.capacity minCapacity - l.capacity) none
      capacity := newCap l.capacity minCapacity })
  else (false, l)

/-- `impl_add`; the answer says whether the item is stored. -/
def add (alloc : ℕ → Bool) (l : ArrayList α) (item : α) : Bool × ArrayList α :=
  let r := l.ensureCapacity alloc (l.size + 1)
  if r.1 then (true, { r.2 with items := r.2.items.set l.size (some item), size := l.size + 1 }) else (false, l)

/-- The loop that closes the hole at `i`, for `n` rounds. -/
def shiftFrom : ℕ → List (Option α) → ℕ → List (Option α)
  | 0, items, _ => items
  | n + 1, items, i => shiftFrom n (items.set i items[i + 1]?.join) (i + 1)

/-- `impl_detach`. -/
def detach (l : ArrayList α) (index : ℕ) : Option α × ArrayList α :=
  if index < l.size then
    (l.items[index]?.join, { l with
      items := (shiftFrom (l.size - 1 - index) l.items index).set (l.size - 1) none
      size := l.size - 1 })
  else (none, l)

/-- The array holds the elements of `q`. -/
structure Represents (l : ArrayList α) (q : List α) : Prop where
  length_items : l.items.length = l.capacity
  size_eq : l.size = q.length
  size_le : l.size ≤ l.capacity
  getElem?_eq : ∀ i < l.size, l.items[i]? = some q[i]?

theorem represents_new (n : ℕ) : Represents (new n : ArrayList α) [] where
  length_items := List.length_replicate
  size_eq := rfl
  size_le := Nat.zero_le _
  getElem?_eq i hi := absurd hi (Nat.not_lt_zero i)

/-! ### Appending -/

variable {l : ArrayList α} {q : List α}

/-- There is room, or the allocation has failed. -/
theorem Represents.ensureCapacity (h : Represents l q) (alloc : ℕ → Bool) (n : ℕ) :
    Represents (l.ensureCapacity alloc n).2 q ∧ (l.ensureCapacity alloc n).2.size = l.size ∧
      ((l.ensureCapacity alloc n).1 = true → n ≤ (l.ensureCapacity alloc n).2.capacity) := by
  have hsize := h.size_le
  have hitems := h.length_items
  rw [ArrayList.ensureCapacity]
  split_ifs with hroom halloc
  · exact ⟨h, rfl, fun _ => hroom⟩
  · have hcap : n ≤ newCap l.capacity n ∧ l.capacity ≤ newCap l.capacity n := by
      rw [newCap]
      split_ifs <;> omega
    refine ⟨⟨?_, h.size_eq, by dsimp only; omega, fun i hi => ?_⟩, rfl, fun _ => hcap.1⟩
    · simp only [List.length_append, List.length_replicate, hitems]
      omega
    · dsimp only at hi ⊢
      rw [List.getElem?_append_left (by omega), h.getElem?_eq i hi]
  · exact ⟨h, rfl, fun hf => absurd hf (by simp)⟩

/-- **Appending**: the item comes last, unless an allocation fails. -/
theorem Represents.add (h : Represents l q) (alloc : ℕ → Bool) (x : α) :
    Represents (l.add alloc x).2 (if (l.add alloc x).1 then q ++ [x] else q) := by
  obtain ⟨hrep, hsize, hroom⟩ := h.ensureCapacity alloc (l.size + 1)
  rw [ArrayList.add]
  dsimp only
  generalize l.ensureCapacity alloc (l.size + 1) = r at *
  by_cases hok : r.1 = true
  · have hcap := hroom hok
    have hlen := hrep.length_items
    have hq := h.size_eq
    simp only [hok, if_true]
    refine ⟨by rw [List.length_set, hlen], by simp [hq], hcap, fun i hi => ?_⟩
    dsimp only at hi ⊢
    rw [List.getElem?_set]
    by_cases hi' : l.size = i
    · rw [if_pos hi', if_pos (by omega), ← hi', hq, List.getElem?_append_right le_rfl]
      simp
    · rw [if_neg hi', hrep.getElem?_eq i (by omega), List.getElem?_append_left (by omega)]
  · simp only [hok, if_false, Bool.false_eq_true]
    exact h

/-! ### Taking out -/

/-- **The loop** moves every element behind the hole one place down. -/
theorem getElem?_shiftFrom {n i j : ℕ} {items : List (Option α)} (h : i + n < items.length) :
    (shiftFrom n items i)[j]? = if i ≤ j ∧ j < i + n then items[j + 1]? else items[j]? := by
  induction n generalizing items i with
  | zero => rw [shiftFrom, if_neg (by omega)]
  | succ n ih =>
      have hnext : items[i + 1]? = some items[i + 1]?.join := by
        rw [List.getElem?_eq_getElem (by omega), Option.join_some]
      rw [shiftFrom, ih (by rw [List.length_set]; omega)]
      by_cases hin : i + 1 ≤ j ∧ j < i + 1 + n
      · rw [if_pos hin, List.getElem?_set, if_neg (by omega), if_pos (by omega)]
      · rw [if_neg hin, List.getElem?_set]
        by_cases hij : i = j
        · rw [if_pos hij, if_pos (by omega), if_pos (by omega), ← hij, ← hnext]
        · rw [if_neg hij, if_neg (by omega)]

theorem length_shiftFrom (n : ℕ) (items : List (Option α)) (i : ℕ) :
    (shiftFrom n items i).length = items.length := by
  induction n generalizing items i with
  | zero => rfl
  | succ n ih => rw [shiftFrom, ih, List.length_set]

/-- **Taking out the first element** leaves the others, in their order. -/
theorem Represents.detach {x : α} (h : Represents l (x :: q)) :
    (l.detach 0).1 = some x ∧ Represents (l.detach 0).2 q := by
  have hsize : l.size = q.length + 1 := h.size_eq
  have hlen := h.length_items
  have hcap := h.size_le
  rw [ArrayList.detach, if_pos (by omega)]
  refine ⟨?_, ⟨?_, ?_, ?_, fun i hi => ?_⟩⟩
  · rw [h.getElem?_eq 0 (by omega)]
    rfl
  · rw [List.length_set, length_shiftFrom, hlen]
  · dsimp only
    omega
  · dsimp only
    omega
  · dsimp only at hi ⊢
    rw [List.getElem?_set, if_neg (by omega), getElem?_shiftFrom (by omega), if_pos (by omega),
      h.getElem?_eq (i + 1) (by omega), List.getElem?_cons_succ]

end ArrayList
