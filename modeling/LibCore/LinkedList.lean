import LibCore.CInt
import Mathlib.Data.List.Basic
import Mathlib.Data.List.Nodup
import Mathlib.Logic.Function.Basic
import Mathlib.Tactic

/-!
# The List Container

`list.c`: a doubly linked list with both ends and a size. An element at an index is reached from the nearer
end, and insertion and removal in the middle set the links of both neighbours.

The memory holds the nodes of the list. A read or a write through a null pointer, or of a node that is not
allocated or freed, gives `none`, and so does a loop that does not end. `malloc` succeeds with the address
that is given to the function. A call that takes `size`, an `int`, out of its range has no result either, so
the runs are those with at most `INT_MAX` nodes at a time (`FewNodes`).

## Main definitions

* `pushFrontNolock`, …, `clear`: the functions.
* `Represents`: the memory holds a chain of nodes in both directions.

## Main results

* `run_sequence`: the list does what a sequence does, and both chains are those of the sequence.
-/

namespace LinkedList

variable {D : Type}

/-- `ListNode`. -/
structure ListNode (D : Type) where
  data : D
  prev : Option ℕ
  next : Option ℕ

/-- The nodes at their addresses. -/
abbrev Heap (D : Type) := ℕ → Option (ListNode D)

/-- A `List` with its nodes. -/
structure DList (D : Type) where
  head : Option ℕ
  tail : Option ℕ
  size : ℤ
  heap : Heap D

/-- `new_List`. -/
def newList : DList D := ⟨none, none, 0, fun _ => none⟩

/-! ### The functions -/

section Functions

/-- A read through a pointer. -/
def load (heap : Heap D) (p : Option ℕ) : Option (ListNode D) := p.bind heap

/-- A write through a pointer. -/
def modify (heap : Heap D) (p : Option ℕ) (f : ListNode D → ListNode D) : Option (Heap D) := do
  let p ← p
  let node ← heap p
  some (Function.update heap p (some (f node)))

/-- `_pushBack_nolock`. -/
def pushBackNolock (node : ℕ) (data : D) (self : DList D) : Option (DList D) := do
  let heap := Function.update self.heap node (some ⟨data, self.tail, none⟩)
  match self.tail with
  | some tail =>
      let heap ← modify heap (some tail) ({ · with next := some node })
      some ⟨self.head, some node, self.size + 1, heap⟩
  | none => some ⟨some node, some node, self.size + 1, heap⟩

/-- `_pushFront_nolock`. -/
def pushFrontNolock (node : ℕ) (data : D) (self : DList D) : Option (DList D) := do
  let heap := Function.update self.heap node (some ⟨data, none, self.head⟩)
  match self.head with
  | some head =>
      let heap ← modify heap (some head) ({ · with prev := some node })
      some ⟨some node, self.tail, self.size + 1, heap⟩
  | none => some ⟨some node, some node, self.size + 1, heap⟩

/-- `_popBack_nolock`. -/
def popBackNolock (self : DList D) : Option (Option D × DList D) :=
  match self.tail with
  | none => some (none, self)
  | some node => do
      let n ← load self.heap (some node)
      match n.prev with
      | some tail =>
          let heap ← modify self.heap (some tail) ({ · with next := none })
          some (some n.data, ⟨self.head, some tail, self.size - 1, Function.update heap node none⟩)
      | none => some (some n.data, ⟨none, none, self.size - 1, Function.update self.heap node none⟩)

/-- `_popFront_nolock`. -/
def popFrontNolock (self : DList D) : Option (Option D × DList D) :=
  match self.head with
  | none => some (none, self)
  | some node => do
      let n ← load self.heap (some node)
      match n.next with
      | some head =>
          let heap ← modify self.heap (some head) ({ · with prev := none })
          some (some n.data, ⟨some head, self.tail, self.size - 1, Function.update heap node none⟩)
      | none => some (some n.data, ⟨none, none, self.size - 1, Function.update self.heap node none⟩)

/-- `curr = curr->next` or `curr = curr->prev`, some times. -/
def walk (heap : Heap D) (link : ListNode D → Option ℕ) : ℕ → Option ℕ → Option (Option ℕ)
  | 0, curr => some curr
  | n + 1, curr => do
      let node ← load heap curr
      walk heap link n (link node)

/-- The way to an index from the nearer end, in `impl_get`, `impl_insertAt` and `impl_removeAt`. -/
def seek (self : DList D) (index : ℤ) : Option (Option ℕ) :=
  if index < self.size.tdiv 2 then walk self.heap ListNode.next index.toNat self.head
  else walk self.heap ListNode.prev (self.size - 1 - index).toNat self.tail

/-- `impl_get`. -/
def get (index : ℤ) (self : DList D) : Option (Option D) :=
  if index < 0 ∨ index ≥ self.size then some none
  else do
    let curr ← seek self index
    let n ← load self.heap curr
    some (some n.data)

/-- `impl_insertAt`. -/
def insertAt (index : ℤ) (node : ℕ) (data : D) (self : DList D) : Option (DList D) :=
  if index ≤ 0 then pushFrontNolock node data self
  else if index ≥ self.size then pushBackNolock node data self
  else do
    let curr ← seek self index
    let n ← load self.heap curr
    let heap := Function.update self.heap node (some ⟨data, n.prev, curr⟩)
    let heap ← modify heap n.prev ({ · with next := some node })
    let heap ← modify heap curr ({ · with prev := some node })
    some { self with size := self.size + 1, heap }

/-- `impl_removeAt`. -/
def removeAt (index : ℤ) (self : DList D) : Option (Option D × DList D) :=
  if index < 0 ∨ index ≥ self.size then some (none, self)
  else if index = 0 then popFrontNolock self
  else if index = self.size - 1 then popBackNolock self
  else do
    let curr ← seek self index
    let n ← load self.heap curr
    let heap ← modify self.heap n.prev ({ · with next := n.next })
    let n ← load heap curr
    let heap ← modify heap n.next ({ · with prev := n.prev })
    let curr ← curr
    some (some n.data, { self with size := self.size - 1, heap := Function.update heap curr none })

/-- The loop of `impl_clear`, for at most `fuel` rounds. -/
def clearLoop : ℕ → Option ℕ → Heap D → Option (Heap D)
  | _, none, heap => some heap
  | 0, some _, _ => none
  | fuel + 1, some curr, heap => do
      let n ← load heap (some curr)
      clearLoop fuel n.next (Function.update heap curr none)

/-- `impl_clear`. -/
def clear (self : DList D) : Option (DList D) := do
  let heap ← clearLoop self.size.toNat self.head self.heap
  some ⟨none, none, 0, heap⟩

end Functions

/-! ### Chains of nodes -/

section Segments

/-- The address of the first of some nodes, before `next`. -/
def first (next : Option ℕ) : List (ℕ × D) → Option ℕ
  | [] => next
  | x :: _ => some x.1

/-- The address of the last of some nodes, behind `prev`. -/
def last (prev : Option ℕ) : List (ℕ × D) → Option ℕ
  | [] => prev
  | x :: nodes => last (some x.1) nodes

/-- The nodes are linked in both directions, between `prev` and `next`. -/
def Segment (heap : Heap D) (next : Option ℕ) : Option ℕ → List (ℕ × D) → Prop
  | _, [] => True
  | prev, x :: nodes => heap x.1 = some ⟨x.2, prev, first next nodes⟩ ∧ Segment heap next (some x.1) nodes

variable {heap heap' : Heap D} {prev next : Option ℕ} {a b nodes : List (ℕ × D)} {x : ℕ × D}

theorem first_append : first next (a ++ b) = first (first next b) a := by
  cases a <;> rfl

theorem last_append : last prev (a ++ b) = last (last prev a) b := by
  induction a generalizing prev with
  | nil => rfl
  | cons x a ih => exact ih

theorem last_concat : last prev (a ++ [x]) = some x.1 := last_append

theorem nodup_append :
    ((a ++ b).map Prod.fst).Nodup ↔ (a.map Prod.fst).Nodup ∧ (b.map Prod.fst).Nodup ∧
      ∀ p ∈ a.map Prod.fst, p ∉ b.map Prod.fst := by
  rw [List.map_append, List.nodup_append]
  grind

theorem nodup_concat :
    ((a ++ [x]).map Prod.fst).Nodup ↔ (a.map Prod.fst).Nodup ∧ x.1 ∉ a.map Prod.fst := by
  rw [List.map_append, List.map_cons, List.map_nil, (List.perm_append_singleton _ _).nodup_iff,
    List.nodup_cons, and_comm]

theorem segment_append :
    Segment heap next prev (a ++ b) ↔ Segment heap (first next b) prev a ∧ Segment heap next (last prev a) b := by
  induction a generalizing prev with
  | nil => exact (iff_of_eq (true_and _)).symm
  | cons x a ih => rw [List.cons_append, Segment, Segment, ih, first_append, last, and_assoc]

/-- A segment is not changed by other nodes. -/
theorem Segment.congr (h : Segment heap next prev nodes) (heq : ∀ p ∈ nodes.map Prod.fst, heap' p = heap p) :
    Segment heap' next prev nodes := by
  induction nodes generalizing prev with
  | nil => trivial
  | cons x nodes ih =>
      refine ⟨(heq _ List.mem_cons_self).trans h.1, ih h.2 fun p hp => ?_⟩
      exact heq p (List.mem_cons_of_mem _ hp)

theorem Segment.update (h : Segment heap next prev nodes) {p : ℕ} (hp : p ∉ nodes.map Prod.fst)
    (node : Option (ListNode D)) : Segment (Function.update heap p node) next prev nodes := by
  refine h.congr fun q hq => Function.update_of_ne ?_ _ _
  rintro rfl
  exact hp hq

theorem Segment.ne_none (h : Segment heap next prev nodes) {p : ℕ} (hp : p ∈ nodes.map Prod.fst) :
    heap p ≠ none := by
  induction nodes generalizing prev with
  | nil => exact (List.not_mem_nil hp).elim
  | cons x nodes ih =>
      rcases List.mem_cons.mp hp with rfl | hp
      · rw [h.1]
        exact Option.some_ne_none _
      · exact ih h.2 hp

theorem modify_some {p : ℕ} {node : ListNode D} (h : heap p = some node) (f : ListNode D → ListNode D) :
    modify heap (some p) f = some (Function.update heap p (some (f node))) := by
  rw [modify, Option.bind_eq_bind, Option.bind_some, h]
  rfl

/-- Freeing a node leaves nothing outside of the others. -/
theorem update_none_outside {p : ℕ} {addrs addrs' : List ℕ} (hout : ∀ q ∉ addrs, heap q = none)
    (hother : ∀ q ∉ addrs', heap' q = heap q) (hsub : ∀ q ∈ addrs, q = p ∨ q ∈ addrs') :
    ∀ q ∉ addrs', Function.update heap' p none q = none := by
  intro q hq
  by_cases hqp : q = p
  · rw [hqp, Function.update_self]
  · rw [Function.update_of_ne hqp, hother q hq, hout q fun hmem => (hsub q hmem).elim hqp hq]

/-- A write of the link behind the last node. -/
theorem Segment.modify_last (h : Segment heap next prev (a ++ [x])) (hx : x.1 ∉ a.map Prod.fst)
    (next' : Option ℕ) :
    ∃ heap', modify heap (some x.1) ({ · with next := next' }) = some heap' ∧
      Segment heap' next' prev (a ++ [x]) ∧ ∀ p ≠ x.1, heap' p = heap p := by
  obtain ⟨ha, hlast, -⟩ := segment_append.mp h
  refine ⟨_, modify_some hlast _, segment_append.mpr ⟨ha.update hx _, ?_, trivial⟩, ?_⟩
  · exact Function.update_self _ _ _
  · exact fun p hp => Function.update_of_ne hp _ _

/-- A write of the link before the first node. -/
theorem Segment.modify_first (h : Segment heap next prev (x :: b)) (hx : x.1 ∉ b.map Prod.fst)
    (prev' : Option ℕ) :
    ∃ heap', modify heap (some x.1) ({ · with prev := prev' }) = some heap' ∧
      Segment heap' next prev' (x :: b) ∧ ∀ p ≠ x.1, heap' p = heap p := by
  refine ⟨_, modify_some h.1 _, ⟨?_, h.2.update hx _⟩, ?_⟩
  · exact Function.update_self _ _ _
  · exact fun p hp => Function.update_of_ne hp _ _

theorem Segment.walk_next (h : Segment heap next prev (a ++ b)) :
    walk heap ListNode.next a.length (first next (a ++ b)) = some (first next b) := by
  induction a generalizing prev with
  | nil => rfl
  | cons x a ih =>
      rw [List.cons_append, List.length_cons, walk, first, load, Option.bind_some, h.1]
      exact ih h.2

theorem Segment.walk_prev (h : Segment heap next prev (a ++ b)) :
    walk heap ListNode.prev b.length (last prev (a ++ b)) = some (last prev a) := by
  induction b using List.reverseRecOn generalizing next with
  | nil => rw [List.append_nil]; rfl
  | append_singleton b x ih =>
      rw [← List.append_assoc] at h ⊢
      obtain ⟨hab, hx, -⟩ := segment_append.mp h
      rw [List.length_append, List.length_singleton, walk, last_append, last, last, load, Option.bind_some, hx]
      exact ih hab

/-- Clearing frees all nodes of a chain. -/
theorem Segment.clearLoop (h : Segment heap none prev nodes) (hnodup : (nodes.map Prod.fst).Nodup) {fuel : ℕ}
    (hfuel : nodes.length ≤ fuel) :
    ∃ heap', LinkedList.clearLoop fuel (first none nodes) heap = some heap' ∧
      ∀ p, heap' p = if p ∈ nodes.map Prod.fst then none else heap p := by
  induction nodes generalizing fuel heap prev with
  | nil => exact ⟨heap, by cases fuel <;> rfl, fun p => rfl⟩
  | cons x nodes ih =>
      obtain ⟨hx, hnodup⟩ := List.nodup_cons.mp hnodup
      cases fuel with
      | zero => exact (Nat.not_succ_le_zero _ hfuel).elim
      | succ fuel =>
          obtain ⟨heap', hclear, hheap'⟩ := ih (h.2.update hx none) hnodup (Nat.le_of_succ_le_succ hfuel)
          refine ⟨heap', ?_, fun p => ?_⟩
          · rw [first, LinkedList.clearLoop, load, Option.bind_some, h.1]
            exact hclear
          · rw [hheap', List.map_cons, Function.update_apply]
            by_cases hp : p = x.1
            · simp [hp]
            · simp only [List.mem_cons, hp, false_or, if_false]

end Segments

/-! ### What the functions do -/

/-- The memory holds the nodes of a list. -/
structure Represents (l : DList D) (nodes : List (ℕ × D)) : Prop where
  nodup : (nodes.map Prod.fst).Nodup
  head : l.head = first none nodes
  tail : l.tail = last none nodes
  size : l.size = nodes.length
  segment : Segment l.heap none none nodes
  outside : ∀ p ∉ nodes.map Prod.fst, l.heap p = none

theorem represents_newList : Represents (newList : DList D) [] where
  nodup := List.nodup_nil
  head := rfl
  tail := rfl
  size := rfl
  segment := trivial
  outside _ _ := rfl

namespace Represents

variable {self : DList D} {nodes a b : List (ℕ × D)} {x : ℕ × D} {node : ℕ}

theorem fresh (h : Represents self nodes) (hnode : self.heap node = none) : node ∉ nodes.map Prod.fst :=
  fun hmem => h.segment.ne_none hmem hnode

theorem pushBack (h : Represents self nodes) (hnode : self.heap node = none) (data : D) :
    ∃ self', pushBackNolock node data self = some self' ∧ Represents self' (nodes ++ [(node, data)]) := by
  have hfresh := h.fresh hnode
  have hsegment := h.segment.update hfresh (some ⟨data, self.tail, none⟩)
  have hself : Function.update self.heap node (some ⟨data, self.tail, none⟩) node = some ⟨data, self.tail, none⟩ :=
    Function.update_self _ _ _
  have hnodup : ((nodes ++ [(node, data)]).map Prod.fst).Nodup := nodup_concat.mpr ⟨h.nodup, hfresh⟩
  have houtside : ∀ p ∉ (nodes ++ [(node, data)]).map Prod.fst,
      Function.update self.heap node (some ⟨data, self.tail, none⟩) p = none := by
    intro p hp
    simp only [List.map_append, List.mem_append, List.map_cons, List.map_nil, List.mem_singleton] at hp
    rw [Function.update_of_ne (by tauto), h.outside p (by tauto)]
  have hsize : self.size + 1 = (nodes ++ [(node, data)]).length := by
    rw [h.size, List.length_append]
    rfl
  rw [pushBackNolock]
  cases nodes using List.reverseRecOn with
  | nil =>
      rw [h.tail] at hself houtside ⊢
      exact ⟨_, rfl, hnodup, rfl, rfl, hsize, ⟨hself, trivial⟩, houtside⟩
  | append_singleton nodes x =>
      have hx : x.1 ∉ nodes.map Prod.fst := (nodup_concat.mp h.nodup).2
      have htail : self.tail = some x.1 := by rw [h.tail, last_concat]
      have hne : node ≠ x.1 := fun heq => hfresh (by simp [heq])
      obtain ⟨heap', hmodify, hchain, hother⟩ := hsegment.modify_last hx (some node)
      rw [htail] at hself houtside hmodify hother ⊢
      dsimp only
      rw [Option.bind_eq_bind, hmodify]
      refine ⟨_, rfl, hnodup, ?_, (@last_concat _ none _ (node, data)).symm, hsize, ?_, fun p hp => ?_⟩
      · rw [h.head, first_append, first_append, first_append]
        cases nodes <;> rfl
      · refine segment_append.mpr ⟨hchain, ?_, trivial⟩
        refine (hother node hne).trans ?_
        rw [hself, last_concat]
        rfl
      · refine (hother p ?_).trans (houtside p hp)
        rintro rfl
        simp at hp

theorem pushFront (h : Represents self nodes) (hnode : self.heap node = none) (data : D) :
    ∃ self', pushFrontNolock node data self = some self' ∧ Represents self' ((node, data) :: nodes) := by
  have hfresh := h.fresh hnode
  have hsegment := h.segment.update hfresh (some ⟨data, none, self.head⟩)
  have hself : Function.update self.heap node (some ⟨data, none, self.head⟩) node = some ⟨data, none, self.head⟩ :=
    Function.update_self _ _ _
  have hnodup : (((node, data) :: nodes).map Prod.fst).Nodup := List.nodup_cons.mpr ⟨hfresh, h.nodup⟩
  have houtside : ∀ p ∉ ((node, data) :: nodes).map Prod.fst,
      Function.update self.heap node (some ⟨data, none, self.head⟩) p = none := by
    intro p hp
    rw [List.map_cons, List.mem_cons, not_or] at hp
    rw [Function.update_of_ne hp.1, h.outside p hp.2]
  have hsize : self.size + 1 = ((node, data) :: nodes).length := by
    rw [h.size, List.length_cons]
    rfl
  rw [pushFrontNolock]
  cases nodes with
  | nil =>
      rw [h.head] at hself houtside ⊢
      exact ⟨_, rfl, hnodup, rfl, rfl, hsize, ⟨hself, trivial⟩, houtside⟩
  | cons x nodes =>
      have hx : x.1 ∉ nodes.map Prod.fst := (List.nodup_cons.mp h.nodup).1
      have hhead : self.head = some x.1 := h.head
      have hne : node ≠ x.1 := fun heq => hfresh (by simp [heq])
      obtain ⟨heap', hmodify, hchain, hother⟩ := hsegment.modify_first hx (some node)
      rw [hhead] at hself houtside hmodify hother ⊢
      dsimp only
      rw [Option.bind_eq_bind, hmodify]
      refine ⟨_, rfl, hnodup, rfl, h.tail, hsize, ⟨?_, hchain⟩, fun p hp => ?_⟩
      · exact (hother node hne).trans hself
      · refine (hother p ?_).trans (houtside p hp)
        rintro rfl
        simp at hp

theorem popBack (h : Represents self (nodes ++ [x])) :
    ∃ self', popBackNolock self = some (some x.2, self') ∧ Represents self' nodes := by
  obtain ⟨hnodup, hx⟩ := nodup_concat.mp h.nodup
  obtain ⟨hnodes, hlast, -⟩ := segment_append.mp h.segment
  have hsize : self.size - 1 = nodes.length := by
    rw [h.size, List.length_append]
    simp
  have htail : self.tail = some x.1 := by rw [h.tail, last_concat]
  have hload : load self.heap (some x.1) = some ⟨x.2, last none nodes, none⟩ := hlast
  have hsub : ∀ q ∈ (nodes ++ [x]).map Prod.fst, q = x.1 ∨ q ∈ nodes.map Prod.fst := by
    intro q hq
    rw [List.map_append, List.mem_append, List.map_cons, List.map_nil, List.mem_singleton] at hq
    exact hq.symm
  rw [popBackNolock, htail]
  dsimp only
  rw [Option.bind_eq_bind, hload, Option.bind_some]
  cases nodes using List.reverseRecOn with
  | nil =>
      exact ⟨_, rfl, hnodup, rfl, rfl, hsize, trivial, update_none_outside h.outside (fun _ _ => rfl) hsub⟩
  | append_singleton nodes y =>
      have hy : y.1 ∉ nodes.map Prod.fst := (nodup_concat.mp hnodup).2
      obtain ⟨heap', hmodify, hchain, hother⟩ := hnodes.modify_last hy none
      dsimp only
      rw [last_concat]
      dsimp only
      rw [hmodify]
      refine ⟨_, rfl, hnodup, ?_, last_concat.symm, hsize, hchain.update hx none,
        update_none_outside h.outside (fun q hq => hother q ?_) hsub⟩
      · rw [h.head, first_append]
        cases nodes <;> rfl
      · rintro rfl
        simp at hq

theorem popFront (h : Represents self (x :: nodes)) :
    ∃ self', popFrontNolock self = some (some x.2, self') ∧ Represents self' nodes := by
  obtain ⟨hx, hnodup⟩ := List.nodup_cons.mp h.nodup
  obtain ⟨hfirst, hnodes⟩ := h.segment
  have hsize : self.size - 1 = nodes.length := by
    rw [h.size, List.length_cons]
    simp
  have hhead : self.head = some x.1 := h.head
  have hload : load self.heap (some x.1) = some ⟨x.2, none, first none nodes⟩ := hfirst
  have hsub : ∀ q ∈ (x :: nodes).map Prod.fst, q = x.1 ∨ q ∈ nodes.map Prod.fst :=
    fun q hq => List.mem_cons.mp hq
  rw [popFrontNolock, hhead]
  dsimp only
  rw [Option.bind_eq_bind, hload, Option.bind_some]
  cases nodes with
  | nil =>
      exact ⟨_, rfl, hnodup, rfl, rfl, hsize, trivial, update_none_outside h.outside (fun _ _ => rfl) hsub⟩
  | cons y nodes =>
      have hy : y.1 ∉ nodes.map Prod.fst := (List.nodup_cons.mp hnodup).1
      obtain ⟨heap', hmodify, hchain, hother⟩ := hnodes.modify_first hy none
      dsimp only [first]
      rw [hmodify]
      refine ⟨_, rfl, hnodup, rfl, h.tail, hsize, hchain.update hx none,
        update_none_outside h.outside (fun q hq => hother q ?_) hsub⟩
      rintro rfl
      simp at hq

theorem seek (h : Represents self (a ++ x :: b)) : LinkedList.seek self a.length = some (some x.1) := by
  rw [LinkedList.seek]
  split_ifs
  · rw [h.head, Int.toNat_natCast, h.segment.walk_next]
    rfl
  · have hsplit : a ++ x :: b = (a ++ [x]) ++ b := by simp
    have hsize : (self.size - 1 - a.length).toNat = b.length := by
      rw [h.size, List.length_append, List.length_cons]
      omega
    have hsegment := h.segment
    rw [hsplit] at hsegment
    rw [h.tail, hsize, hsplit, hsegment.walk_prev, last_append]
    rfl

theorem load (h : Represents self (a ++ x :: b)) :
    LinkedList.load self.heap (some x.1) = some ⟨x.2, last none a, first none b⟩ :=
  (segment_append.mp h.segment).2.1

/-- An index in the list splits it. -/
theorem exists_split (h : Represents self nodes) {index : ℤ} (hnonneg : 0 ≤ index) (hlt : index < self.size) :
    ∃ a x b, nodes = a ++ x :: b ∧ index = a.length := by
  rw [h.size] at hlt
  have hlen : index.toNat < nodes.length := by omega
  refine ⟨nodes.take index.toNat, nodes[index.toNat], nodes.drop (index.toNat + 1), ?_, ?_⟩
  · rw [← List.drop_eq_getElem_cons hlen, List.take_append_drop]
  · rw [List.length_take]
    omega

theorem insertIdx_append_length {α : Type} (a b : List α) (v : α) :
    (a ++ b).insertIdx a.length v = a ++ v :: b := by
  induction a with
  | nil => rfl
  | cons x a ih => rw [List.cons_append, List.length_cons, List.insertIdx_succ_cons, ih, List.cons_append]

theorem insertMiddle {y : ℕ × D} (h : Represents self (a ++ [y] ++ x :: b)) (hnode : self.heap node = none)
    (data : D) :
    ∃ self', LinkedList.insertAt (a ++ [y]).length node data self = some self' ∧
      Represents self' (a ++ [y] ++ (node, data) :: x :: b) := by
  have hfresh := h.fresh hnode
  have hsize : self.size = (a ++ [y]).length + 1 + b.length := by
    rw [h.size, List.length_append, List.length_cons]
    push_cast
    ring
  have hpos : 0 < (a ++ [y]).length := by simp
  obtain ⟨hnodupa, hnodupb, hdisj⟩ := nodup_append.mp h.nodup
  obtain ⟨-, hy⟩ := nodup_concat.mp hnodupa
  obtain ⟨hx, -⟩ := List.nodup_cons.mp hnodupb
  have hymem : y.1 ∈ (a ++ [y]).map Prod.fst := by simp
  have hxmem : x.1 ∈ (x :: b).map Prod.fst := List.mem_cons_self
  rw [List.map_append, List.mem_append, not_or] at hfresh
  have hney : node ≠ y.1 := fun heq => hfresh.1 (heq ▸ hymem)
  have hnex : node ≠ x.1 := fun heq => hfresh.2 (heq ▸ hxmem)
  rw [LinkedList.insertAt, if_neg (by omega), if_neg (by omega), h.seek]
  simp only [Option.bind_eq_bind, Option.bind_some, h.load, last_concat]
  set n : ListNode D := ⟨data, some y.1, some x.1⟩
  -- the new node, then the links of both neighbours
  obtain ⟨hleft, hright⟩ := segment_append.mp h.segment
  obtain ⟨heap₁, hmodify₁, hleft, hother₁⟩ := (hleft.update hfresh.1 (some n)).modify_last hy (some node)
  have hright₁ : Segment heap₁ none (last none (a ++ [y])) (x :: b) := by
    refine (hright.update hfresh.2 (some n)).congr fun p hp => hother₁ p ?_
    rintro rfl
    exact hdisj _ hymem hp
  obtain ⟨heap₂, hmodify₂, hright, hother₂⟩ := hright₁.modify_first hx (some node)
  have hleft₂ : Segment heap₂ (some node) none (a ++ [y]) := by
    refine hleft.congr fun p hp => hother₂ p ?_
    rintro rfl
    exact hdisj _ hp hxmem
  have hnew : heap₂ node = some n := by
    rw [hother₂ node hnex, hother₁ node hney, Function.update_self]
  rw [hmodify₁, Option.bind_some, hmodify₂]
  refine ⟨_, rfl, ?_, ?_, ?_, ?_, ?_, fun p hp => ?_⟩
  · refine nodup_append.mpr ⟨hnodupa, List.nodup_cons.mpr ⟨hfresh.2, hnodupb⟩, fun p hp hp' => ?_⟩
    rcases List.mem_cons.mp hp' with rfl | hp'
    · exact hfresh.1 hp
    · exact hdisj p hp hp'
  · rw [h.head, first_append, first_append, first_append, first_append]
    rfl
  · exact h.tail.trans (last_append.trans (last_append (a := a ++ [y]) (b := (node, data) :: x :: b)).symm)
  · simp only [hsize, List.length_append, List.length_cons]
    push_cast
    ring
  · refine segment_append.mpr ⟨hleft₂, ?_, hright⟩
    rw [last_concat]
    exact hnew
  · simp only [List.map_append, List.map_cons, List.mem_append, List.mem_cons, not_or] at hp
    have hpy : p ≠ y.1 := by
      rintro rfl
      simp at hp
    refine (hother₂ p hp.2.2.1).trans ?_
    rw [hother₁ p hpy, Function.update_of_ne hp.2.1, h.outside p]
    simp only [List.map_append, List.map_cons, List.mem_append, List.mem_cons, not_or]
    exact ⟨hp.1, hp.2.2⟩

theorem removeMiddle {y z : ℕ × D} (h : Represents self (a ++ [y] ++ x :: z :: b)) :
    ∃ self', LinkedList.removeAt (a ++ [y]).length self = some (some x.2, self') ∧
      Represents self' (a ++ [y] ++ z :: b) := by
  have hsize : self.size = (a ++ [y]).length + 2 + b.length := by
    rw [h.size, List.length_append, List.length_cons, List.length_cons]
    push_cast
    ring
  have hpos : 0 < (a ++ [y]).length := by simp
  obtain ⟨hnodupa, hnodupx, hdisj⟩ := nodup_append.mp h.nodup
  obtain ⟨-, hy⟩ := nodup_concat.mp hnodupa
  obtain ⟨hx, hnodupb⟩ := List.nodup_cons.mp hnodupx
  obtain ⟨hz, -⟩ := List.nodup_cons.mp hnodupb
  have hymem : y.1 ∈ (a ++ [y]).map Prod.fst := by simp
  have hzmem : z.1 ∈ (z :: b).map Prod.fst := List.mem_cons_self
  have hxa : x.1 ∉ (a ++ [y]).map Prod.fst := fun hmem => hdisj _ hmem List.mem_cons_self
  have hdisj : ∀ p ∈ (a ++ [y]).map Prod.fst, p ∉ (z :: b).map Prod.fst :=
    fun p hp hp' => hdisj p hp (List.mem_cons_of_mem _ hp')
  have hxy : x.1 ≠ y.1 := fun heq => hxa (heq ▸ hymem)
  rw [LinkedList.removeAt, if_neg (by omega), if_neg (by omega), if_neg (by omega), h.seek]
  simp only [Option.bind_eq_bind, Option.bind_some, h.load, last_concat]
  -- the links of both neighbours, then the node is freed
  obtain ⟨hleft, hself, hright⟩ := segment_append.mp h.segment
  obtain ⟨heap₁, hmodify₁, hleft, hother₁⟩ := hleft.modify_last hy (some z.1)
  have hright₁ : Segment heap₁ none (some x.1) (z :: b) := by
    refine hright.congr fun p hp => hother₁ p ?_
    rintro rfl
    exact hdisj _ hymem hp
  have hself₁ : LinkedList.load heap₁ (some x.1) = some ⟨x.2, some y.1, some z.1⟩ := by
    rw [LinkedList.load, Option.bind_some, hother₁ _ hxy, hself, last_concat]
    rfl
  obtain ⟨heap₂, hmodify₂, hright, hother₂⟩ := hright₁.modify_first hz (some y.1)
  have hleft₂ : Segment heap₂ (some z.1) none (a ++ [y]) := by
    refine hleft.congr fun p hp => hother₂ p ?_
    rintro rfl
    exact hdisj _ hp hzmem
  dsimp only [first]
  rw [hmodify₁, Option.bind_some, hself₁, Option.bind_some, hmodify₂]
  refine ⟨_, rfl, ?_, ?_, ?_, ?_, ?_, update_none_outside h.outside (fun p hp => ?_) fun p hp => ?_⟩
  · exact nodup_append.mpr ⟨hnodupa, hnodupb, hdisj⟩
  · rw [h.head, first_append, first_append, first_append, first_append]
    rfl
  · exact h.tail.trans (last_append.trans (last_append (a := a ++ [y]) (b := z :: b)).symm)
  · simp only [hsize, List.length_append, List.length_cons]
    push_cast
    ring
  · refine segment_append.mpr ⟨hleft₂.update hxa none, ?_⟩
    rw [last_concat]
    exact hright.update hx none
  · simp only [List.map_append, List.map_cons, List.mem_append, List.mem_cons, not_or] at hp
    have hpy : p ≠ y.1 := by
      rintro rfl
      simp at hp
    rw [hother₂ p hp.2.1, hother₁ p hpy]
  · simp only [List.map_append, List.map_cons, List.mem_append, List.mem_cons] at hp ⊢
    tauto

theorem get (h : Represents self nodes) (index : ℤ) :
    LinkedList.get index self = some (if index < 0 then none else (nodes.map Prod.snd)[index.toNat]?) := by
  rw [LinkedList.get]
  by_cases hout : index < 0 ∨ index ≥ self.size
  · rw [if_pos hout]
    split_ifs with hneg
    · rfl
    · rw [h.size] at hout
      rw [List.getElem?_eq_none]
      rw [List.length_map]
      omega
  · rw [if_neg hout]
    obtain ⟨a, x, b, rfl, rfl⟩ := h.exists_split (show 0 ≤ index by omega) (by omega)
    rw [h.seek]
    simp [h.load]

theorem clear (h : Represents self nodes) :
    LinkedList.clear self = some newList := by
  have hsize : nodes.length ≤ self.size.toNat := by
    rw [h.size]
    exact le_rfl
  obtain ⟨heap', hclear, hheap'⟩ := h.segment.clearLoop h.nodup hsize
  have hempty : heap' = fun _ => none := by
    funext p
    rw [hheap' p]
    split_ifs with hp
    · rfl
    · exact h.outside p hp
  rw [LinkedList.clear, h.head, hclear, hempty]
  rfl

/-- Insertion at an index, clamped to the ends. -/
theorem insertAt (h : Represents self nodes) (hnode : self.heap node = none) (index : ℤ) (data : D) :
    ∃ self', LinkedList.insertAt index node data self = some self' ∧
      Represents self' (nodes.insertIdx (min index.toNat nodes.length) (node, data)) := by
  by_cases hfront : index ≤ 0
  · rw [LinkedList.insertAt, if_pos hfront, Int.toNat_of_nonpos hfront, Nat.zero_min]
    exact h.pushFront hnode data
  by_cases hback : index ≥ self.size
  · have hlen : nodes.length ≤ index.toNat := by
      rw [h.size] at hback
      omega
    rw [LinkedList.insertAt, if_neg hfront, if_pos hback, Nat.min_eq_right hlen, List.insertIdx_length_self]
    exact h.pushBack hnode data
  · obtain ⟨a, x, b, rfl, rfl⟩ := h.exists_split (show 0 ≤ index by omega) (by omega)
    cases a using List.reverseRecOn with
    | nil => exact (hfront le_rfl).elim
    | append_singleton a y =>
        have hlen : (a ++ [y]).length ≤ (a ++ [y] ++ x :: b).length := by
          rw [@List.length_append _ (a ++ [y])]
          exact Nat.le_add_right _ _
        rw [Int.toNat_natCast, Nat.min_eq_left hlen, insertIdx_append_length]
        exact h.insertMiddle hnode data

/-- Removal at an index. -/
theorem removeAt (h : Represents self nodes) {index : ℤ} (hnonneg : 0 ≤ index) (hlt : index < self.size) :
    ∃ self', LinkedList.removeAt index self = some ((nodes.map Prod.snd)[index.toNat]?, self') ∧
      Represents self' (nodes.eraseIdx index.toNat) := by
  obtain ⟨a, x, b, rfl, rfl⟩ := h.exists_split hnonneg hlt
  have hdata : ((a ++ x :: b).map Prod.snd)[(a.length : ℤ).toNat]? = some x.2 := by simp
  have herase : (a ++ x :: b).eraseIdx (a.length : ℤ).toNat = a ++ b := by
    rw [Int.toNat_natCast, List.eraseIdx_append_of_length_le le_rfl, Nat.sub_self, List.eraseIdx_cons_zero]
  rw [hdata, herase]
  cases a using List.reverseRecOn with
  | nil =>
      rw [LinkedList.removeAt, if_neg (by omega), if_pos (by rfl)]
      exact h.popFront
  | append_singleton a y =>
      cases b with
      | nil =>
          have hpos : ¬((a ++ [y]).length : ℤ) = 0 := by
            rw [List.length_append, List.length_singleton]
            omega
          have hlast : ((a ++ [y]).length : ℤ) = self.size - 1 := by
            rw [h.size]
            simp only [List.length_append, List.length_singleton]
            omega
          rw [List.append_nil, LinkedList.removeAt, if_neg (by omega), if_neg hpos, if_pos hlast]
          exact h.popBack
      | cons z b => exact h.removeMiddle

theorem head_eq (h : Represents self nodes) : self.head = nodes.head?.map Prod.fst := by
  rw [h.head]
  cases nodes <;> rfl

theorem tail_eq (h : Represents self nodes) : self.tail = nodes.getLast?.map Prod.fst := by
  rw [h.tail]
  cases nodes using List.reverseRecOn with
  | nil => rfl
  | append_singleton nodes x => rw [last_concat, List.getLast?_concat, Option.map_some]

end Represents

/-! ### Runs -/

/-- A call, with the address that `malloc` gives to a new node. -/
inductive Op (D : Type) where
  | pushFront (node : ℕ) (data : D)
  | pushBack (node : ℕ) (data : D)
  | popFront
  | popBack
  | insertAt (index : ℤ) (node : ℕ) (data : D)
  | removeAt (index : ℤ)
  | get (index : ℤ)
  | clear

/-- A function of the list: its result and the list afterwards. -/
def call (self : DList D) : Op D → Option (Option D × DList D)
  | .pushFront node data => (pushFrontNolock node data self).map (none, ·)
  | .pushBack node data => (pushBackNolock node data self).map (none, ·)
  | .popFront => popFrontNolock self
  | .popBack => popBackNolock self
  | .insertAt index node data => (insertAt index node data self).map (none, ·)
  | .removeAt index => removeAt index self
  | .get index => (get index self).map (·, self)
  | .clear => (clear self).map (none, ·)

/-- A call on the list, unless it takes `size` out of its range. -/
def exec (self : DList D) (op : Op D) : Option (Option D × DList D) :=
  (call self op).filter fun r => FitsInt r.2.size

/-- Some calls on a list. -/
def run : DList D → List (Op D) → Option (List (Option D) × DList D)
  | self, [] => some ([], self)
  | self, op :: ops => do
      let (result, self) ← exec self op
      let (results, self) ← run self ops
      some (result :: results, self)

/-- The address of the new node of a call. -/
def Op.node : Op D → Option ℕ
  | .pushFront node _ | .pushBack node _ | .insertAt _ node _ => some node
  | _ => none

/-- `malloc` gives only addresses that are not in use. -/
def Allocates (self : DList D) : List (Op D) → Prop
  | [] => True
  | op :: ops =>
      (∀ node ∈ op.node, self.heap node = none) ∧
        ∀ result self', exec self op = some (result, self') → Allocates self' ops

/-- What a call does to a sequence. -/
def specExec (l : List D) : Op D → Option D × List D
  | .pushFront _ data => (none, data :: l)
  | .pushBack _ data => (none, l ++ [data])
  | .popFront => (l.head?, l.tail)
  | .popBack => (l.getLast?, l.dropLast)
  | .insertAt index _ data => (none, l.insertIdx (min index.toNat l.length) data)
  | .removeAt index => if index < 0 then (none, l) else (l[index.toNat]?, l.eraseIdx index.toNat)
  | .get index => (if index < 0 then none else l[index.toNat]?, l)
  | .clear => (none, [])

/-- Some calls on a sequence. -/
def specRun : List D → List (Op D) → List (Option D) × List D
  | l, [] => ([], l)
  | l, op :: ops =>
      let (result, l) := specExec l op
      let (results, l) := specRun l ops
      (result :: results, l)

/-- At no time there are more nodes than an `int` counts. -/
def FewNodes (l : List D) (ops : List (Op D)) : Prop :=
  ∀ ops', ops' <+: ops → (specRun l ops').2.length ≤ 2147483647

/-- A call adds one node at most. -/
theorem length_specExec_le (l : List D) (op : Op D) : (specExec l op).2.length ≤ l.length + 1 := by
  cases op with
  | removeAt index =>
      rw [specExec]
      split_ifs
      · exact Nat.le_succ _
      · exact (List.length_eraseIdx_le _ _).trans (Nat.le_succ _)
  | insertAt index node data =>
      rw [specExec, List.length_insertIdx]
      split_ifs <;> omega
  | popFront | popBack =>
      simp only [specExec, List.length_tail, List.length_dropLast]
      omega
  | _ => simp [specExec]

theorem fewNodes_of_length {l : List D} {ops : List (Op D)} (h : l.length + ops.length ≤ 2147483647) :
    FewNodes l ops := by
  induction ops generalizing l with
  | nil =>
      rintro ops' hprefix
      rw [List.prefix_nil.mp hprefix]
      exact h
  | cons op ops ih =>
      rintro (- | ⟨op', ops'⟩) hprefix
      · exact (Nat.le_add_right _ _).trans h
      · obtain ⟨rfl, htail⟩ := List.cons_prefix_cons.mp hprefix
        have hlength := length_specExec_le l op'
        rw [List.length_cons] at h
        have hnext : FewNodes (specExec l op').2 ops := ih (by omega)
        exact hnext ops' htail

/-- The nodes that are found along the links, for at most `fuel` of them. -/
def chain (heap : Heap D) (link : ListNode D → Option ℕ) : ℕ → Option ℕ → Option (List (ℕ × D))
  | _, none => some []
  | 0, some _ => none
  | fuel + 1, some p => do
      let n ← heap p
      let nodes ← chain heap link fuel (link n)
      some ((p, n.data) :: nodes)

theorem Segment.chain_next {heap : Heap D} {prev : Option ℕ} {nodes : List (ℕ × D)}
    (h : Segment heap none prev nodes) : chain heap ListNode.next nodes.length (first none nodes) = some nodes := by
  induction nodes generalizing prev with
  | nil => rfl
  | cons x nodes ih =>
      rw [List.length_cons, first, chain, h.1]
      simp only [Option.bind_eq_bind, Option.bind_some, ih h.2]

theorem Segment.chain_prev {heap : Heap D} {next : Option ℕ} {nodes : List (ℕ × D)}
    (h : Segment heap next none nodes) :
    chain heap ListNode.prev nodes.length (last none nodes) = some nodes.reverse := by
  induction nodes using List.reverseRecOn generalizing next with
  | nil => rfl
  | append_singleton nodes x ih =>
      obtain ⟨hnodes, hx, -⟩ := segment_append.mp h
      rw [last_concat, List.length_append, List.length_singleton, chain, hx, List.reverse_concat]
      simp only [Option.bind_eq_bind, Option.bind_some, ih hnodes]

/-- A call does what it does to the sequence. -/
theorem Represents.call {self : DList D} {nodes : List (ℕ × D)} (h : Represents self nodes) (op : Op D)
    (hnode : ∀ node ∈ op.node, self.heap node = none) :
    ∃ self' nodes', LinkedList.call self op = some ((specExec (nodes.map Prod.snd) op).1, self') ∧
      Represents self' nodes' ∧ nodes'.map Prod.snd = (specExec (nodes.map Prod.snd) op).2 := by
  cases op with
  | pushFront node data =>
      obtain ⟨self', hpush, hself'⟩ := h.pushFront (hnode node rfl) data
      exact ⟨self', _, by rw [LinkedList.call, hpush]; rfl, hself', rfl⟩
  | pushBack node data =>
      obtain ⟨self', hpush, hself'⟩ := h.pushBack (hnode node rfl) data
      exact ⟨self', _, by rw [LinkedList.call, hpush]; rfl, hself', List.map_append⟩
  | popFront =>
      cases nodes with
      | nil => exact ⟨self, [], by rw [LinkedList.call, popFrontNolock, h.head]; rfl, h, rfl⟩
      | cons x nodes =>
          obtain ⟨self', hpop, hself'⟩ := h.popFront
          exact ⟨self', nodes, hpop, hself', rfl⟩
  | popBack =>
      cases nodes using List.reverseRecOn with
      | nil => exact ⟨self, [], by rw [LinkedList.call, popBackNolock, h.tail]; rfl, h, rfl⟩
      | append_singleton nodes x =>
          obtain ⟨self', hpop, hself'⟩ := h.popBack
          refine ⟨self', nodes, ?_, hself', ?_⟩
          · rw [LinkedList.call, hpop, specExec, List.map_append, List.map_singleton, List.getLast?_concat]
          · rw [specExec, List.map_append, List.map_singleton, List.dropLast_concat]
  | insertAt index node data =>
      obtain ⟨self', hinsert, hself'⟩ := h.insertAt (hnode node rfl) index data
      refine ⟨self', _, by rw [LinkedList.call, hinsert]; rfl, hself', ?_⟩
      rw [specExec, List.length_map, List.map_insertIdx]
  | removeAt index =>
      by_cases hneg : index < 0
      · refine ⟨self, nodes, ?_, h, ?_⟩
        · rw [LinkedList.call, LinkedList.removeAt, if_pos (.inl hneg), specExec, if_pos hneg]
        · rw [specExec, if_pos hneg]
      rw [specExec, if_neg hneg]
      by_cases hlt : index < self.size
      · obtain ⟨self', hremove, hself'⟩ := h.removeAt (by omega) hlt
        exact ⟨self', _, hremove, hself', (List.eraseIdx_map _ _ _).symm⟩
      · have hlen : (nodes.map Prod.snd).length ≤ index.toNat := by
          rw [h.size] at hlt
          rw [List.length_map]
          omega
        refine ⟨self, nodes, ?_, h, (List.eraseIdx_of_length_le hlen).symm⟩
        rw [LinkedList.call, LinkedList.removeAt, if_pos (.inr (by omega)), List.getElem?_eq_none hlen]
  | get index => exact ⟨self, nodes, by rw [LinkedList.call, h.get]; rfl, h, rfl⟩
  | clear => exact ⟨newList, [], by rw [LinkedList.call, h.clear]; rfl, represents_newList, rfl⟩

theorem Represents.exec {self : DList D} {nodes : List (ℕ × D)} (h : Represents self nodes) (op : Op D)
    (hnode : ∀ node ∈ op.node, self.heap node = none)
    (hfew : (specExec (nodes.map Prod.snd) op).2.length ≤ 2147483647) :
    ∃ self' nodes', LinkedList.exec self op = some ((specExec (nodes.map Prod.snd) op).1, self') ∧
      Represents self' nodes' ∧ nodes'.map Prod.snd = (specExec (nodes.map Prod.snd) op).2 := by
  obtain ⟨self', nodes', hcall, hself', hnodes'⟩ := h.call op hnode
  have hfits : FitsInt self'.size := by
    rw [hself'.size, fitsInt_natCast, ← nodes'.length_map Prod.snd, hnodes']
    exact hfew
  exact ⟨self', nodes', by simp [LinkedList.exec, hcall, hfits], hself', hnodes'⟩

theorem Represents.run {self : DList D} {nodes : List (ℕ × D)} (h : Represents self nodes) (ops : List (Op D))
    (halloc : Allocates self ops) (hfew : FewNodes (nodes.map Prod.snd) ops) :
    ∃ self' nodes', LinkedList.run self ops = some ((specRun (nodes.map Prod.snd) ops).1, self') ∧
      Represents self' nodes' ∧ nodes'.map Prod.snd = (specRun (nodes.map Prod.snd) ops).2 := by
  induction ops generalizing self nodes with
  | nil => exact ⟨self, nodes, rfl, h, rfl⟩
  | cons op ops ih =>
      obtain ⟨self₁, nodes₁, hexec, hself₁, hnodes₁⟩ :=
        h.exec op halloc.1 (hfew [op] (List.prefix_append [op] ops))
      have hfew₁ : FewNodes (nodes₁.map Prod.snd) ops := fun ops' hprefix => by
        rw [hnodes₁]
        exact hfew (op :: ops') (List.cons_prefix_cons.mpr ⟨rfl, hprefix⟩)
      obtain ⟨self₂, nodes₂, hrun, hself₂, hnodes₂⟩ := ih hself₁ (halloc.2 _ _ hexec) hfew₁
      rw [hnodes₁] at hrun hnodes₂
      refine ⟨self₂, nodes₂, ?_, hself₂, hnodes₂⟩
      rw [LinkedList.run, hexec]
      simp only [Option.bind_eq_bind, Option.bind_some, hrun, specRun]

/-- **The list is a sequence, and its chains are each other's reverse** -/
theorem run_sequence (ops : List (Op D)) (halloc : Allocates newList ops) (hfew : FewNodes [] ops) :
    ∃ self nodes, run newList ops = some ((specRun [] ops).1, self) ∧
      nodes.map Prod.snd = (specRun [] ops).2 ∧
      chain self.heap ListNode.next nodes.length self.head = some nodes ∧
      chain self.heap ListNode.prev nodes.length self.tail = some nodes.reverse ∧
      self.head = nodes.head?.map Prod.fst ∧
      self.tail = nodes.getLast?.map Prod.fst ∧
      self.size = nodes.length := by
  obtain ⟨self, nodes, hrun, hself, hnodes⟩ := represents_newList.run ops halloc hfew
  refine ⟨self, nodes, hrun, hnodes, ?_, ?_, hself.head_eq, hself.tail_eq, hself.size⟩
  · rw [hself.head]
    exact hself.segment.chain_next
  · rw [hself.tail]
    exact hself.segment.chain_prev

theorem run_sequence_sample :
    ∃ self nodes, run newList [.pushBack 1 50, .pushFront 2 30, .insertAt 1 3 40, .removeAt 0, .get 1] =
        some ([none, none, none, some 30, some 50], self) ∧
      nodes.map Prod.snd = [40, 50] ∧
      chain self.heap ListNode.next nodes.length self.head = some nodes ∧
      chain self.heap ListNode.prev nodes.length self.tail = some nodes.reverse ∧
      self.head = nodes.head?.map Prod.fst ∧
      self.tail = nodes.getLast?.map Prod.fst ∧
      self.size = nodes.length := by
  refine run_sequence [.pushBack 1 50, .pushFront 2 30, .insertAt 1 3 40, .removeAt 0, .get 1] ?_
    (fewNodes_of_length (by decide))
  refine ⟨by rintro _ ⟨⟩; rfl, ?_⟩
  rintro _ _ ⟨⟩
  refine ⟨by rintro _ ⟨⟩; rfl, ?_⟩
  rintro _ _ ⟨⟩
  refine ⟨by rintro _ ⟨⟩; rfl, ?_⟩
  rintro _ _ ⟨⟩
  refine ⟨by rintro _ ⟨⟩, ?_⟩
  rintro _ _ ⟨⟩
  exact ⟨by rintro _ ⟨⟩, fun _ _ _ => trivial⟩

end LinkedList
