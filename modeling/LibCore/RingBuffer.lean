import LibCore.Circular

/-!
# The `RingBuffer`

The bounded queue of `ring_buffer.c`, shared by the threads that push and those that pop. Every operation is
one step under the lock, except for `popWait`: on an empty buffer it gives the lock up and goes on when it has
the lock again, whether it was signalled, timed out or woke for no reason. A thread that waits takes no other
step.

The abstract side is a first-in first-out queue of at most `capacity` items. The threads and the order of
their steps are the same on both sides, so one interpreter runs both.

## Main definitions

* `RingBuffer`, `rbPush`, `rbPop`, `rbPopWait`, `rbWake`, `rbClear`: the buffer.
* `Shared`, `exec`, `run`: threads that use a buffer.
* `queue`: the abstract queue.

## Main results

* `run_refines_queue`: every run of the buffer is one of the queue, with the same answers.
-/

open Circular

variable {α T : Type}

/-- The buffer; an empty slot is NULL. -/
structure RingBuffer (α : Type) where
  items : List (Option α)
  capacity : ℕ
  head : ℕ
  tail : ℕ
  count : ℕ

namespace RingBuffer

/-- `new_RingBuffer`. -/
def newRingBuffer (capacity : ℕ) : RingBuffer α :=
  let capacity := if capacity = 0 then 1024 else capacity
  { items := List.replicate capacity none, capacity := capacity, head := 0, tail := 0, count := 0 }

/-- `rb_push`. -/
def rbPush (rb : RingBuffer α) : Option α → Bool × RingBuffer α
  | none => (false, rb)
  | some item =>
      if rb.count ≥ rb.capacity then (false, rb)
      else (true, { rb with
        items := rb.items.set rb.head (some item)
        head := (rb.head + 1) % rb.capacity
        count := rb.count + 1 })

/-- The end of `rb_pop` and `rb_pop_wait`: the item in the slot `tail`, which is cleared. -/
def takeTail (rb : RingBuffer α) : Option α × RingBuffer α :=
  (rb.items[rb.tail]?.join, { rb with
    items := rb.items.set rb.tail none
    tail := (rb.tail + 1) % rb.capacity
    count := rb.count - 1 })

/-- `rb_pop`. -/
def rbPop (rb : RingBuffer α) : Option α × RingBuffer α :=
  if rb.count = 0 then (none, rb) else rb.takeTail

/-- `rb_pop_wait` up to the wait on `not_empty`, or to its end when there is no wait. -/
def rbPopWait (rb : RingBuffer α) : Option (Option α × RingBuffer α) :=
  if rb.count = 0 then none else some rb.takeTail

/-- `rb_pop_wait` from the wait on. -/
def rbWake (rb : RingBuffer α) : Option α × RingBuffer α :=
  if rb.count = 0 then (none, rb) else rb.takeTail

/-- `rb_clear`. -/
def rbClear (rb : RingBuffer α) : RingBuffer α :=
  { rb with items := List.replicate rb.capacity none, head := 0, tail := 0, count := 0 }

/-! ### Threads -/

/-- A buffer that threads can share. `popWait` without a result waits, and `wake` is the end of the wait. -/
structure Shared (S α : Type) where
  push : S → Option α → Bool × S
  pop : S → Option α × S
  popWait : S → Option (Option α × S)
  wake : S → Option α × S
  clear : S → S

/-- The ring buffer. -/
def ring : Shared (RingBuffer α) α where
  push := rbPush
  pop := rbPop
  popWait := rbPopWait
  wake := rbWake
  clear := rbClear

/-- The **queue**: the first item is the oldest one. NULL is no item. -/
def queue (capacity : ℕ) : Shared (List α) α where
  push
    | q, some item => if q.length < capacity then (true, q ++ [item]) else (false, q)
    | q, none => (false, q)
  pop q := (q.head?, q.tail)
  popWait q := if q.isEmpty then none else some (q.head?, q.tail)
  wake q := (q.head?, q.tail)
  clear _ := []

/-- The steps of a thread. -/
inductive Op (T α : Type)
  | push (t : T) (item : Option α)
  | pop (t : T)
  | popWait (t : T)
  | wake (t : T)
  | clear (t : T)

/-- What a step answers. -/
inductive Answer (α : Type)
  | pushed (ok : Bool)
  | popped (item : Option α)
  | waits
  | cleared

variable [DecidableEq T] {S : Type}

/-- One step. The threads of `waiting` are in the wait of `popWait`. -/
def exec (b : Shared S α) (waiting : List T) (s : S) : Op T α → Option (Answer α × List T × S)
  | .push t item =>
      if t ∈ waiting then none else some (.pushed (b.push s item).1, waiting, (b.push s item).2)
  | .pop t => if t ∈ waiting then none else some (.popped (b.pop s).1, waiting, (b.pop s).2)
  | .popWait t =>
      if t ∈ waiting then none
      else some ((b.popWait s).elim (.waits, t :: waiting, s) fun r => (.popped r.1, waiting, r.2))
  | .wake t =>
      if t ∈ waiting then some (.popped (b.wake s).1, waiting.erase t, (b.wake s).2) else none
  | .clear t => if t ∈ waiting then none else some (.cleared, waiting, b.clear s)

/-- The answers to a sequence of steps, and the end state. -/
def run (b : Shared S α) : List T → S → List (Op T α) → Option (List (Answer α) × List T × S)
  | waiting, s, [] => some ([], waiting, s)
  | waiting, s, op :: ops =>
      (exec b waiting s op).bind fun r =>
        (run b r.2.1 r.2.2 ops).map fun rs => (r.1 :: rs.1, rs.2)

/-! ### One operation -/

/-- The buffer holds the items of `q`, the oldest one at `tail`, and all other slots are NULL. -/
structure Represents (rb : RingBuffer α) (q : List α) : Prop where
  length_items : rb.items.length = rb.capacity
  head_lt : rb.head < rb.capacity
  tail_lt : rb.tail < rb.capacity
  count_eq : rb.count = q.length
  count_le : rb.count ≤ rb.capacity
  head_modEq : Nat.ModEq rb.capacity rb.head (rb.tail + rb.count)
  window : Window rb.items rb.tail q

variable {rb : RingBuffer α} {q : List α}

theorem represents_empty {n : ℕ} (hn : 0 < n) :
    Represents { items := List.replicate n (none : Option α), capacity := n, head := 0, tail := 0, count := 0 } [] where
  length_items := List.length_replicate
  head_lt := hn
  tail_lt := hn
  count_eq := rfl
  count_le := Nat.zero_le n
  head_modEq := rfl
  window := .replicate n 0

theorem represents_newRingBuffer (capacity : ℕ) :
    Represents (newRingBuffer capacity : RingBuffer α) [] ∧
      (newRingBuffer capacity : RingBuffer α).capacity = if capacity = 0 then 1024 else capacity := by
  refine ⟨represents_empty ?_, rfl⟩
  split <;> omega

theorem Represents.clear (h : Represents rb q) : Represents rb.rbClear [] :=
  represents_empty (Nat.zero_lt_of_lt h.head_lt)

/-- An item is appended unless the buffer is full. -/
theorem Represents.push (h : Represents rb q) (item : Option α) :
    (rb.rbPush item).1 = ((queue rb.capacity).push q item).1 ∧
      Represents (rb.rbPush item).2 ((queue rb.capacity).push q item).2 := by
  cases item with
  | none => exact ⟨rfl, h⟩
  | some x =>
      by_cases hfull : rb.count ≥ rb.capacity
      · have hlen : ¬q.length < rb.capacity := by
          rw [← h.count_eq]
          omega
        simp only [rbPush, queue, if_pos hfull, if_neg hlen]
        exact ⟨trivial, h⟩
      · have hlen : q.length < rb.capacity := by
          rw [← h.count_eq]
          omega
        have hhead : rb.head = (rb.tail + q.length) % rb.items.length := by
          rw [h.length_items, ← h.count_eq, ← h.head_modEq, Nat.mod_eq_of_lt h.head_lt]
        simp only [rbPush, queue, if_neg hfull, if_pos hlen]
        refine ⟨trivial, ?_⟩
        constructor
        · rw [List.length_set, h.length_items]
        · exact Nat.mod_lt _ (by omega)
        · exact h.tail_lt
        · rw [List.length_append, List.length_singleton, h.count_eq]
        · show rb.count + 1 ≤ rb.capacity
          omega
        · exact (Nat.mod_modEq _ _).trans (h.head_modEq.add_right 1)
        · rw [hhead]
          exact h.window.push (by rwa [h.length_items]) x

/-- The oldest item is taken out. -/
theorem Represents.takeTail (h : Represents rb q) (hne : q ≠ []) :
    rb.takeTail.1 = q.head? ∧ Represents rb.takeTail.2 q.tail := by
  obtain ⟨x, q, rfl⟩ := List.exists_cons_of_ne_nil hne
  have hstart : rb.tail < rb.items.length := by
    rw [h.length_items]
    exact h.tail_lt
  have hcount : rb.count = q.length + 1 := h.count_eq
  have hle := h.count_le
  refine ⟨?_, ?_⟩
  · rw [RingBuffer.takeTail, h.window.head hstart]
    rfl
  · constructor
    · exact (List.length_set).trans h.length_items
    · exact h.head_lt
    · exact Nat.mod_lt _ (Nat.zero_lt_of_lt h.tail_lt)
    · show rb.count - 1 = q.length
      omega
    · show rb.count - 1 ≤ rb.capacity
      omega
    · have hsum : rb.tail + rb.count = rb.tail + 1 + (rb.count - 1) := by omega
      refine h.head_modEq.trans ?_
      rw [hsum]
      exact ((Nat.mod_modEq _ _).symm).add_right _
    · have hwindow := h.window.pop hstart (by rw [h.length_items]; omega)
      rwa [h.length_items] at hwindow

theorem Represents.isEmpty_iff (h : Represents rb q) : rb.count = 0 ↔ q = [] := by
  rw [h.count_eq, List.length_eq_zero_iff]

theorem Represents.pop (h : Represents rb q) :
    rb.rbPop.1 = q.head? ∧ Represents rb.rbPop.2 q.tail := by
  rw [rbPop]
  by_cases hnil : q = []
  · rw [if_pos (h.isEmpty_iff.mpr hnil)]
    subst hnil
    exact ⟨rfl, h⟩
  · rw [if_neg (h.isEmpty_iff.not.mpr hnil)]
    exact h.takeTail hnil

theorem Represents.popWait (h : Represents rb q) :
    (rb.rbPopWait = none ∧ (queue rb.capacity).popWait q = none) ∨
      ∃ rb', rb.rbPopWait = some (q.head?, rb') ∧ (queue rb.capacity).popWait q = some (q.head?, q.tail) ∧
        Represents rb' q.tail ∧ rb'.capacity = rb.capacity := by
  rw [rbPopWait]
  by_cases hnil : q = []
  · left
    exact ⟨if_pos (h.isEmpty_iff.mpr hnil), if_pos (List.isEmpty_iff.mpr hnil)⟩
  · right
    obtain ⟨hitem, hrep⟩ := h.takeTail hnil
    refine ⟨rb.takeTail.2, ?_, if_neg (by simpa using hnil), hrep, rfl⟩
    rw [if_neg (h.isEmpty_iff.not.mpr hnil), ← hitem]

theorem capacity_rbPush (rb : RingBuffer α) (item : Option α) : (rb.rbPush item).2.capacity = rb.capacity := by
  cases item with
  | none => rfl
  | some x =>
      rw [rbPush]
      split_ifs <;> rfl

theorem capacity_rbPop (rb : RingBuffer α) : rb.rbPop.2.capacity = rb.capacity := by
  rw [rbPop]
  split_ifs <;> rfl

/-! ### Runs -/

/-- **One step** of a thread: the queue takes it too, with the same answer. -/
theorem Represents.exec (h : Represents rb q) {waiting waiting' : List T} {op : Op T α} {a : Answer α}
    {rb' : RingBuffer α} (hstep : exec ring waiting rb op = some (a, waiting', rb')) :
    ∃ q', RingBuffer.exec (queue rb.capacity) waiting q op = some (a, waiting', q') ∧ Represents rb' q' ∧
      rb'.capacity = rb.capacity := by
  cases op with
  | push t item =>
      obtain ⟨hok, hrep⟩ := h.push item
      simp only [RingBuffer.exec, ring, Option.ite_none_left_eq_some, Option.some.injEq, Prod.mk.injEq] at hstep ⊢
      obtain ⟨hfree, rfl, rfl, rfl⟩ := hstep
      exact ⟨_, ⟨hfree, by rw [hok], rfl, rfl⟩, hrep, capacity_rbPush rb item⟩
  | pop t =>
      obtain ⟨hitem, hrep⟩ := h.pop
      simp only [RingBuffer.exec, ring, Option.ite_none_left_eq_some, Option.some.injEq, Prod.mk.injEq] at hstep ⊢
      obtain ⟨hfree, rfl, rfl, rfl⟩ := hstep
      exact ⟨_, ⟨hfree, by rw [hitem]; rfl, rfl, rfl⟩, hrep, capacity_rbPop rb⟩
  | popWait t =>
      simp only [RingBuffer.exec, ring, Option.ite_none_left_eq_some, Option.some.injEq] at hstep ⊢
      obtain ⟨hfree, hstep⟩ := hstep
      rcases h.popWait with ⟨hwait, hqueue⟩ | ⟨rb₁, hitem, hqueue, hrep, hcap⟩
      · rw [hwait, Option.elim_none, Prod.mk.injEq, Prod.mk.injEq] at hstep
        obtain ⟨rfl, rfl, rfl⟩ := hstep
        exact ⟨q, ⟨hfree, by rw [hqueue, Option.elim_none]⟩, h, rfl⟩
      · rw [hitem, Option.elim_some, Prod.mk.injEq, Prod.mk.injEq] at hstep
        obtain ⟨rfl, rfl, rfl⟩ := hstep
        exact ⟨q.tail, ⟨hfree, by rw [hqueue, Option.elim_some]⟩, hrep, hcap⟩
  | wake t =>
      obtain ⟨hitem, hrep⟩ := h.pop
      simp only [RingBuffer.exec, ring, Option.ite_none_right_eq_some, Option.some.injEq, Prod.mk.injEq] at hstep ⊢
      obtain ⟨hwaits, rfl, rfl, rfl⟩ := hstep
      exact ⟨_, ⟨hwaits, congrArg Answer.popped hitem.symm, rfl, rfl⟩, hrep, capacity_rbPop rb⟩
  | clear t =>
      simp only [RingBuffer.exec, ring, Option.ite_none_left_eq_some, Option.some.injEq, Prod.mk.injEq] at hstep ⊢
      obtain ⟨hfree, rfl, rfl, rfl⟩ := hstep
      exact ⟨_, ⟨hfree, rfl, rfl, rfl⟩, h.clear, rfl⟩

theorem Represents.run (h : Represents rb q) {waiting waiting' : List T} {ops : List (Op T α)}
    {answers : List (Answer α)} {rb' : RingBuffer α}
    (hrun : run ring waiting rb ops = some (answers, waiting', rb')) :
    ∃ q', RingBuffer.run (queue rb.capacity) waiting q ops = some (answers, waiting', q') ∧ Represents rb' q' := by
  induction ops generalizing waiting rb q answers with
  | nil =>
      simp only [RingBuffer.run, Option.some.injEq, Prod.mk.injEq] at hrun ⊢
      obtain ⟨rfl, rfl, rfl⟩ := hrun
      exact ⟨q, ⟨rfl, rfl, rfl⟩, h⟩
  | cons op ops ih =>
      rw [RingBuffer.run] at hrun
      obtain ⟨⟨a, waiting₁, rb₁⟩, hstep, hmap⟩ := Option.bind_eq_some_iff.mp hrun
      obtain ⟨⟨rest, waiting₂, rb₂⟩, hrest, heq⟩ := Option.map_eq_some_iff.mp hmap
      simp only [Prod.mk.injEq] at heq
      obtain ⟨rfl, rfl, rfl⟩ := heq
      obtain ⟨q₁, hqueue, hrep, hcap⟩ := h.exec hstep
      obtain ⟨q', hqueues, hrep'⟩ := ih hrep hrest
      rw [hcap] at hqueues
      exact ⟨q', by rw [RingBuffer.run, hqueue, Option.bind_some, hqueues]; rfl, hrep'⟩

/-! ### Where the items go -/

/-- The item that a step has put into the buffer. -/
def accepted : Op T α → Answer α → List α
  | .push _ item, .pushed true => item.toList
  | _, _ => []

/-- The item that a step has handed out. -/
def returned : Answer α → List α
  | .popped item => item.toList
  | _ => []

/-- What becomes of the items of the queue: those of `departed` are no longer in it, in the order in which they
came; they have been handed out (`true`), or a `clear` has dropped them. -/
structure Ledger (ops : List (Op T α)) (answers : List (Answer α)) (q q' : List α)
    (departed : List (α × Bool)) : Prop where
  order : q ++ (List.zipWith accepted ops answers).flatten = departed.map Prod.fst ++ q'
  returned_eq : answers.flatMap returned = (departed.filter Prod.snd).map Prod.fst
  of_no_clear : (∀ t, Op.clear t ∉ ops) → ∀ d ∈ departed, d.2 = true

omit [DecidableEq T] in
/-- A step that takes the first item out, if there is one. -/
theorem ledger_take (q : List α) {op : Op T α} (hop : ∀ a, accepted op a = []) :
    ∃ departed, Ledger [op] [.popped q.head?] q q.tail departed := by
  cases q with
  | nil => exact ⟨[], by simp [hop], by simp [returned], by simp⟩
  | cons x q => exact ⟨[(x, true)], by simp [hop], by simp [returned], by simp⟩

theorem ledger_exec {n : ℕ} {waiting waiting' : List T} {op : Op T α} {a : Answer α} {q' : List α}
    (hstep : exec (queue n) waiting q op = some (a, waiting', q')) : ∃ departed, Ledger [op] [a] q q' departed := by
  cases op with
  | push t item =>
      simp only [exec, Option.ite_none_left_eq_some, Option.some.injEq, Prod.mk.injEq] at hstep
      obtain ⟨-, rfl, -, rfl⟩ := hstep
      refine ⟨[], ?_, by simp [returned], by simp⟩
      cases item with
      | none => simp [queue, accepted]
      | some x =>
          simp only [queue]
          split_ifs <;> simp [accepted]
  | pop t =>
      simp only [exec, Option.ite_none_left_eq_some, Option.some.injEq, Prod.mk.injEq] at hstep
      obtain ⟨-, rfl, -, rfl⟩ := hstep
      exact ledger_take q fun _ => rfl
  | popWait t =>
      simp only [exec, Option.ite_none_left_eq_some, Option.some.injEq] at hstep
      obtain ⟨-, hstep⟩ := hstep
      by_cases hnil : q.isEmpty = true
      · simp only [queue, hnil, if_true, Option.elim_none, Prod.mk.injEq] at hstep
        obtain ⟨rfl, -, rfl⟩ := hstep
        exact ⟨[], by simp [accepted], by simp [returned], by simp⟩
      · simp only [queue, hnil, if_false, Option.elim_some, Prod.mk.injEq, Bool.false_eq_true] at hstep
        obtain ⟨rfl, -, rfl⟩ := hstep
        exact ledger_take q fun _ => rfl
  | wake t =>
      simp only [exec, Option.ite_none_right_eq_some, Option.some.injEq, Prod.mk.injEq] at hstep
      obtain ⟨-, rfl, -, rfl⟩ := hstep
      exact ledger_take q fun _ => rfl
  | clear t =>
      simp only [exec, Option.ite_none_left_eq_some, Option.some.injEq, Prod.mk.injEq] at hstep
      obtain ⟨-, rfl, -, rfl⟩ := hstep
      exact ⟨q.map fun x => (x, false), by simp [queue, accepted, Function.comp_def],
        by simp [returned, List.filter_map, Function.comp_def],
        fun hno => absurd (List.mem_singleton_self _) (hno t)⟩

theorem ledger_run {n : ℕ} {waiting waiting' : List T} {ops : List (Op T α)} {answers : List (Answer α)}
    {q' : List α} (hrun : run (queue n) waiting q ops = some (answers, waiting', q')) :
    ∃ departed, Ledger ops answers q q' departed := by
  induction ops generalizing waiting q answers with
  | nil =>
      simp only [run, Option.some.injEq, Prod.mk.injEq] at hrun
      obtain ⟨rfl, -, rfl⟩ := hrun
      exact ⟨[], by simp, by simp, by simp⟩
  | cons op ops ih =>
      rw [run] at hrun
      obtain ⟨⟨a, waiting₁, q₁⟩, hstep, hmap⟩ := Option.bind_eq_some_iff.mp hrun
      obtain ⟨⟨rest, waiting₂, q₂⟩, hrest, heq⟩ := Option.map_eq_some_iff.mp hmap
      simp only [Prod.mk.injEq] at heq
      obtain ⟨rfl, rfl, rfl⟩ := heq
      obtain ⟨first, hfirst⟩ := ledger_exec hstep
      obtain ⟨departed, hdeparted⟩ := ih hrest
      refine ⟨first ++ departed, ?_, ?_, fun hno d hd => ?_⟩
      · have horder := hfirst.order
        simp only [List.zipWith_cons_cons, List.zipWith_nil_left, List.flatten_cons, List.flatten_nil,
          List.append_nil] at horder
        rw [List.zipWith_cons_cons, List.flatten_cons, ← List.append_assoc, horder, List.append_assoc,
          hdeparted.order, List.map_append, List.append_assoc]
      · have hback := hfirst.returned_eq
        rw [List.flatMap_singleton] at hback
        rw [List.flatMap_cons, hback, hdeparted.returned_eq, List.filter_append, List.map_append]
      · rcases List.mem_append.mp hd with hd | hd
        · exact hfirst.of_no_clear (fun t ht => hno t (List.mem_cons.mpr (Or.inl (List.mem_singleton.mp ht)))) d hd
        · exact hdeparted.of_no_clear (fun t ht => hno t (List.mem_cons_of_mem op ht)) d hd

/-- **The buffer is a bounded queue.** For every capacity that is asked for and every order of the steps of
its threads, the queue of that capacity gives the same answers; the buffer holds the items of the queue in a
window of its slots, and every accepted item leaves once, in the order of the pushes. -/
theorem run_refines_queue (capacity : ℕ) {ops : List (Op T α)} {answers : List (Answer α)} {waiting : List T}
    {rb : RingBuffer α} (hrun : run ring [] (newRingBuffer capacity) ops = some (answers, waiting, rb)) :
    ∃ q departed, run (queue (if capacity = 0 then 1024 else capacity)) [] [] ops = some (answers, waiting, q) ∧
      Represents rb q ∧ Ledger ops answers [] q departed := by
  obtain ⟨hnew, hcap⟩ := represents_newRingBuffer (α := α) capacity
  obtain ⟨q, hqueue, hrep⟩ := hnew.run hrun
  rw [hcap] at hqueue
  obtain ⟨departed, hledger⟩ := ledger_run hqueue
  exact ⟨q, departed, hqueue, hrep, hledger⟩

/-- A full buffer refuses an item; a thread that waits gets the item that is pushed meanwhile. -/
theorem run_refines_queue_sample :
    ∃ q departed, run (queue (if 1 = 0 then 1024 else 1)) []  []
        [.push 1 (some 7), .push 1 (some 8), .pop 2, .popWait 2, .push 1 (some 9), .wake 2] =
          some ([.pushed true, .pushed false, .popped (some 7), .waits, .pushed true, .popped (some 9)], [], q) ∧
      Represents ⟨[none], 1, 0, 0, 0⟩ q ∧
      Ledger [.push 1 (some 7), .push 1 (some 8), .pop 2, .popWait 2, .push 1 (some 9), .wake 2]
        [.pushed true, .pushed false, .popped (some 7), .waits, .pushed true, .popped (some 9)] [] q departed :=
  @run_refines_queue ℕ ℕ _ 1 _ _ [] _ rfl

end RingBuffer
