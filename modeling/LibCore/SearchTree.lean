import Mathlib.Data.List.Basic
import Mathlib.Tactic

/-!
# The Binary Search Tree

`tree.c`: an unbalanced search tree with a comparison function. Insertion and deletion stop without an error
below a depth of 1000. A node with two children is deleted by copying the data of its successor and deleting
that one by comparison. There are two traversals: `foreach`, which is recursive and stops below the depth,
and an iterator with a stack of its own.

A pointer to a node is the tree below it. Allocations succeed.

## Main definitions

* `insertRec`, `deleteRec`, `foreachRec`, `iterNext`: the functions.
* `place`: the number of nodes on the path to the place of an element.

## Main results

* `run_search_tree`: as long as no path gets too long, the tree holds what was inserted and not removed.
* `insert_found_iff`: an inserted element is found exactly if the path to its place has at most 1001 nodes.
-/

namespace SearchTree

/-- `MAX_TREE_DEPTH`. -/
def maxTreeDepth : ℕ := 1000

variable {E : Type}

/-- A pointer to a `TreeNode`. -/
inductive TreeNode (E : Type) where
  | null
  | node (data : E) (left right : TreeNode E)

open TreeNode

/-! ### The functions -/

section Functions

variable (cmp : E → E → ℤ)

/-- `_insertRec`. -/
def insertRec (data : E) : TreeNode E → ℕ → TreeNode E
  | null, depth => if depth > maxTreeDepth then null else node data null null
  | node d left right, depth =>
      if depth > maxTreeDepth then node d left right
      else if cmp data d < 0 then node d (insertRec data left (depth + 1)) right
      else if cmp data d > 0 then node d left (insertRec data right (depth + 1))
      else node d left right

/-- The data of `_findMin`. -/
def findMin : TreeNode E → Option E
  | null => none
  | node d null _ => some d
  | node _ left _ => findMin left

/-- `_deleteRec`. -/
def deleteRec : TreeNode E → E → ℕ → TreeNode E
  | null, _, _ => null
  | node d left right, key, depth =>
      if depth > maxTreeDepth then node d left right
      else if cmp key d < 0 then node d (deleteRec left key (depth + 1)) right
      else if cmp key d > 0 then node d left (deleteRec right key (depth + 1))
      else
        match left, findMin right with
        | null, _ => right
        | left, none => left
        | left, some data => node data left (deleteRec right data (depth + 1))

/-- `_foreachRec`: the data on which the function is called. -/
def foreachRec : TreeNode E → ℕ → List E
  | null, _ => []
  | node d left right, depth =>
      if depth > maxTreeDepth then [] else foreachRec left (depth + 1) ++ d :: foreachRec right (depth + 1)

/-- `impl_insert`. -/
def insert (root : TreeNode E) (data : E) : TreeNode E := insertRec cmp data root 0

/-- `impl_remove`. -/
def remove (root : TreeNode E) (key : E) : TreeNode E := deleteRec cmp root key 0

/-- `impl_foreach`. -/
def foreach (root : TreeNode E) : List E := foreachRec root 0

end Functions

/-- `TreeIterator`, with the nodes on its stack. -/
structure TreeIterator (E : Type) where
  stack : List (TreeNode E)
  current : TreeNode E

/-- `new_TreeIterator`. -/
def newTreeIterator (root : TreeNode E) : TreeIterator E := ⟨[], root⟩

/-- `iter_hasNext`. -/
def iterHasNext (self : TreeIterator E) : Bool :=
  match self.current, self.stack with
  | null, [] => false
  | _, _ => true

/-- The loop of `iter_next`. -/
def pushLeft : TreeNode E → List (TreeNode E) → List (TreeNode E)
  | null, stack => stack
  | node d left right, stack => pushLeft left (node d left right :: stack)

/-- `iter_next`. -/
def iterNext (self : TreeIterator E) : Option E × TreeIterator E :=
  match pushLeft self.current self.stack with
  | node data _ right :: stack => (some data, ⟨stack, right⟩)
  | stack => (none, ⟨stack, null⟩)

/-- The loop `while (it->hasNext(it)) it->next(it)`, for at most `fuel` rounds: the data and whether the loop
has ended. -/
def iterate : ℕ → TreeIterator E → List (Option E) × Bool
  | 0, self => ([], !iterHasNext self)
  | fuel + 1, self =>
      if iterHasNext self then
        let (data, self) := iterNext self
        let (rest, ended) := iterate fuel self
        (data :: rest, ended)
      else ([], true)

/-! ### Elements -/

/-- The elements in order. -/
def toList : TreeNode E → List E
  | null => []
  | node d left right => toList left ++ d :: toList right

/-- The number of nodes on the longest path to a leaf. -/
def height : TreeNode E → ℕ
  | null => 0
  | node _ left right => max (height left) (height right) + 1

/-- The number of nodes on the path from the root to the place of an element, with the element. -/
def place (cmp : E → E → ℤ) (x : E) : TreeNode E → ℕ
  | null => 1
  | node d left right =>
      if cmp x d < 0 then place cmp x left + 1 else if cmp x d > 0 then place cmp x right + 1 else 1

/-- A comparison function of a total order. Elements may be equal without being the same object. -/
structure TotalOrder (cmp : E → E → ℤ) : Prop where
  swap : ∀ a b, 0 < cmp a b ↔ cmp b a < 0
  trans : ∀ a b c, cmp a b ≤ 0 → cmp b c ≤ 0 → cmp a c ≤ 0

namespace TotalOrder

variable {cmp : E → E → ℤ} (h : TotalOrder cmp) {a b c : E}

include h

theorem self (a : E) : cmp a a = 0 := by
  have := h.swap a a
  omega

theorem eq_comm : cmp a b = 0 ↔ cmp b a = 0 := by
  have h₁ := h.swap a b
  have h₂ := h.swap b a
  omega

theorem lt_of_lt_of_le (hab : cmp a b < 0) (hbc : cmp b c ≤ 0) : cmp a c < 0 := by
  have h₁ := h.swap b a
  have h₂ := h.swap c a
  have h₃ := h.swap a c
  have h₄ := h.trans b c a hbc
  by_contra hnot
  omega

theorem lt_of_le_of_lt (hab : cmp a b ≤ 0) (hbc : cmp b c < 0) : cmp a c < 0 := by
  have h₁ := h.swap c b
  have h₂ := h.swap c a
  have h₃ := h.swap a c
  have h₄ := h.trans c a b
  by_contra hnot
  omega

end TotalOrder

/-! ### Lists in order -/

section Lists

variable (cmp : E → E → ℤ)

/-- Strictly increasing. -/
def Increasing (l : List E) : Prop := l.Pairwise (cmp · · < 0)

/-- Insertion into an increasing list, unless an equal element is there. -/
def putIn (x : E) : List E → List E
  | [] => [x]
  | y :: l => if cmp x y < 0 then x :: y :: l else if cmp x y > 0 then y :: putIn x l else y :: l

variable {cmp} {x d : E} {l r : List E}

theorem putIn_append_of_lt (hx : cmp x d < 0) : putIn cmp x (l ++ d :: r) = putIn cmp x l ++ d :: r := by
  induction l with
  | nil => exact if_pos hx
  | cons y l ih =>
      rw [List.cons_append, putIn, putIn, ih]
      split_ifs <;> rfl

theorem putIn_append_of_ge (hx : ∀ y ∈ l, cmp x y > 0) : putIn cmp x (l ++ r) = l ++ putIn cmp x r := by
  induction l with
  | nil => rfl
  | cons y l ih =>
      rw [List.forall_mem_cons] at hx
      rw [List.cons_append, putIn, if_neg (by omega), if_pos hx.1, ih hx.2, List.cons_append]

theorem mem_putIn (h : TotalOrder cmp) (hl : Increasing cmp l) {y : E} :
    y ∈ putIn cmp x l ↔ y ∈ l ∨ (y = x ∧ ∀ z ∈ l, cmp x z ≠ 0) := by
  induction l with
  | nil => simp [putIn]
  | cons z l ih =>
      obtain ⟨hz, hl⟩ := List.pairwise_cons.mp hl
      rw [putIn]
      split_ifs with hlt hgt
      · have hnone : ∀ w ∈ z :: l, cmp x w ≠ 0 := by
          refine List.forall_mem_cons.mpr ⟨hlt.ne, fun w hw => ?_⟩
          exact (h.lt_of_lt_of_le hlt (hz w hw).le).ne
        rw [List.mem_cons]
        grind
      · rw [List.mem_cons, ih hl, List.mem_cons, List.forall_mem_cons]
        grind
      · rw [List.forall_mem_cons]
        grind

theorem Increasing.putIn (h : TotalOrder cmp) (hl : Increasing cmp l) (x : E) : Increasing cmp (putIn cmp x l) := by
  induction l with
  | nil => exact List.pairwise_singleton _ _
  | cons z l ih =>
      obtain ⟨hz, hrest⟩ := List.pairwise_cons.mp hl
      rw [SearchTree.putIn]
      split_ifs with hlt hgt
      · refine List.pairwise_cons.mpr ⟨List.forall_mem_cons.mpr ⟨hlt, fun w hw => ?_⟩, hl⟩
        exact h.lt_of_lt_of_le hlt (hz w hw).le
      · refine List.pairwise_cons.mpr ⟨fun w hw => ?_, ih hrest⟩
        rcases (mem_putIn h hrest).mp hw with hw | ⟨rfl, -⟩
        · exact hz w hw
        · exact (h.swap w z).mp hgt
      · exact hl

end Lists

/-! ### What the functions do to the elements -/

section Elements

variable {cmp : E → E → ℤ}

/-- Insertion, by recursion along the path to the place of the element. -/
theorem toList_insertRec (h : TotalOrder cmp) (x : E) (t : TreeNode E) (depth : ℕ)
    (ht : Increasing cmp (toList t)) :
    toList (insertRec cmp x t depth) =
      if depth + place cmp x t ≤ maxTreeDepth + 1 then putIn cmp x (toList t) else toList t := by
  induction t generalizing depth with
  | null =>
      rw [insertRec, place]
      by_cases hdeep : depth > maxTreeDepth
      · rw [if_pos hdeep, if_neg (by omega)]
      · rw [if_neg hdeep, if_pos (by omega)]
        rfl
  | node d left right ihl ihr =>
      obtain ⟨hleft, hright, hbetween⟩ := List.pairwise_append.mp ht
      have hbelow : ∀ y ∈ toList left, cmp y d < 0 := fun y hy => hbetween y hy d List.mem_cons_self
      rw [insertRec, place]
      by_cases hdeep : depth > maxTreeDepth
      · have hplace : 1 ≤ if cmp x d < 0 then place cmp x left + 1
            else if cmp x d > 0 then place cmp x right + 1 else 1 := by
          split_ifs <;> omega
        rw [if_pos hdeep, if_neg (by omega)]
      rw [if_neg hdeep]
      by_cases hlt : cmp x d < 0
      · rw [if_pos hlt, if_pos hlt, toList, ihl _ hleft, toList, putIn_append_of_lt hlt,
          Nat.add_right_comm depth 1, Nat.add_assoc depth]
        split_ifs <;> rfl
      rw [if_neg hlt, if_neg hlt]
      have habove : ∀ y ∈ toList left, cmp x y > 0 := by
        intro y hy
        rw [gt_iff_lt, h.swap]
        have hd := h.swap x d
        have hd' := h.swap d x
        exact h.lt_of_lt_of_le (hbelow y hy) (by omega)
      by_cases hgt : cmp x d > 0
      · rw [if_pos hgt, if_pos hgt, toList, ihr _ (List.pairwise_cons.mp hright).2, toList,
          putIn_append_of_ge habove, putIn, if_neg hlt, if_pos hgt, Nat.add_right_comm depth 1, Nat.add_assoc depth]
        split_ifs <;> rfl
      · rw [if_neg hgt, if_neg hgt, if_pos (by omega), toList, putIn_append_of_ge habove, putIn, if_neg hlt,
          if_neg hgt]

theorem height_insertRec (x : E) (t : TreeNode E) (depth : ℕ) (ht : height t + depth ≤ maxTreeDepth + 1) :
    height (insertRec cmp x t depth) + depth ≤ maxTreeDepth + 1 := by
  induction t generalizing depth with
  | null =>
      rw [insertRec]
      split_ifs
      · exact ht
      · simp only [height]
        omega
  | node d left right ihl ihr =>
      simp only [height] at ht
      have hl := ihl (depth + 1) (by omega)
      have hr := ihr (depth + 1) (by omega)
      rw [insertRec]
      split_ifs <;> simp only [height] <;> omega

theorem findMin_eq_head? (t : TreeNode E) : findMin t = (toList t).head? := by
  fun_induction findMin t with
  | case1 => rfl
  | case2 d right => rfl
  | case3 d left right hne ih =>
      cases left with
      | null => exact (hne rfl).elim
      | node d' l r =>
          have hsome : toList (node d' l r) ≠ [] := by simp [toList]
          change _ = (toList (node d' l r) ++ d :: toList right).head?
          rw [ih, List.head?_append_of_ne_nil _ hsome]

/-- Deletion of the root, with the successor of the root in the list of the right subtree. -/
theorem toList_deleteRec_root {d key : E} {left right : TreeNode E} {depth : ℕ} (hdepth : depth ≤ maxTreeDepth)
    (heq : cmp key d = 0)
    (hmin : ∀ m rest, toList right = m :: rest → toList (deleteRec cmp right m (depth + 1)) = rest) :
    toList (deleteRec cmp (node d left right) key depth) = toList left ++ toList right := by
  rw [deleteRec.eq_def]
  dsimp only
  rw [if_neg (by omega), if_neg (by omega), if_neg (by omega)]
  cases left with
  | null => rfl
  | node d' l r =>
      rw [findMin_eq_head?]
      cases hright : toList right with
      | nil => exact (List.append_nil _).symm
      | cons m rest =>
          change toList (node d' l r) ++ m :: toList (deleteRec cmp right m (depth + 1)) = _
          rw [hmin m rest hright]

/-- Deletion takes out the element that is equal to the key. -/
theorem toList_deleteRec (h : TotalOrder cmp) (t : TreeNode E) (key : E) (depth : ℕ)
    (ht : Increasing cmp (toList t)) (hheight : height t + depth ≤ maxTreeDepth + 1) :
    toList (deleteRec cmp t key depth) = (toList t).filter (cmp key · ≠ 0) := by
  induction t generalizing key depth with
  | null => rfl
  | node d left right ihl ihr =>
      obtain ⟨hleft, hright, hbetween⟩ := List.pairwise_append.mp ht
      obtain ⟨habove, hright⟩ := List.pairwise_cons.mp hright
      have hbelow : ∀ y ∈ toList left, cmp y d < 0 := fun y hy => hbetween y hy d List.mem_cons_self
      simp only [height] at hheight
      have hsame : ∀ {l : List E}, (∀ y ∈ l, cmp key y ≠ 0) → l.filter (cmp key · ≠ 0) = l := by
        intro l hl
        rw [List.filter_eq_self]
        exact fun y hy => by simpa using hl y hy
      have hcases : toList (deleteRec cmp (node d left right) key depth) =
          if cmp key d < 0 then toList (deleteRec cmp left key (depth + 1)) ++ d :: toList right
          else if cmp key d > 0 then toList left ++ d :: toList (deleteRec cmp right key (depth + 1))
          else toList left ++ toList right := by
        split_ifs with hlt hgt
        · rw [deleteRec.eq_def]
          dsimp only
          rw [if_neg (by omega), if_pos hlt, toList]
        · rw [deleteRec.eq_def]
          dsimp only
          rw [if_neg (by omega), if_neg hlt, if_pos hgt, toList]
        · refine toList_deleteRec_root (by omega) (by omega) fun m rest hm => ?_
          obtain ⟨hm', hrest⟩ := List.pairwise_cons.mp (hm ▸ hright : Increasing cmp (m :: rest))
          rw [ihr m _ hright (by omega), hm, List.filter_cons, if_neg (by simp [h.self]), List.filter_eq_self]
          exact fun y hy => by simpa using (hm' y hy).ne
      rw [hcases, toList, List.filter_append, List.filter_cons]
      by_cases hlt : cmp key d < 0
      · rw [if_pos hlt, ihl key _ hleft (by omega), if_pos (by simpa using hlt.ne),
          hsame fun y hy => (h.lt_of_lt_of_le hlt (habove y hy).le).ne]
      rw [if_neg hlt]
      have hle : cmp d key ≤ 0 := by
        have h₁ := h.swap key d
        have h₂ := h.swap d key
        omega
      have hleftSame : ∀ y ∈ toList left, cmp key y ≠ 0 := by
        intro y hy heq
        have := h.lt_of_lt_of_le (hbelow y hy) hle
        have := h.swap key y
        omega
      rw [hsame hleftSame]
      by_cases hgt : cmp key d > 0
      · rw [if_pos hgt, ihr key _ hright (by omega), if_pos (by simpa using hgt.ne')]
      have heq : cmp key d = 0 := by omega
      have hrightSame : ∀ y ∈ toList right, cmp key y ≠ 0 :=
        fun y hy => (h.lt_of_le_of_lt heq.le (habove y hy)).ne
      rw [if_neg hgt, if_neg (by simp [heq]), hsame hrightSame]

theorem height_deleteRec (t : TreeNode E) (key : E) (depth : ℕ) : height (deleteRec cmp t key depth) ≤ height t := by
  induction t generalizing key depth with
  | null => exact le_rfl
  | node d left right ihl ihr =>
      have hl := ihl key (depth + 1)
      rw [deleteRec.eq_def]
      dsimp only
      split_ifs
      · exact le_rfl
      · simp only [height]
        omega
      · have hr := ihr key (depth + 1)
        simp only [height]
        omega
      · cases left with
        | null =>
            simp only [height]
            omega
        | node d' l r =>
            cases findMin right with
            | none =>
                simp only [height]
                omega
            | some m =>
                have hr := ihr m (depth + 1)
                simp only [height]
                omega

/-- `foreach` visits all the elements of a tree that is not too high. -/
theorem foreachRec_eq (t : TreeNode E) (depth : ℕ) (ht : height t + depth ≤ maxTreeDepth + 1) :
    foreachRec t depth = toList t := by
  induction t generalizing depth with
  | null => rfl
  | node d left right ihl ihr =>
      simp only [height] at ht
      rw [foreachRec, if_neg (by omega), ihl _ (by omega), ihr _ (by omega), toList]

end Elements

/-! ### The iterator -/

section Iterator

/-- What is still to come for the nodes on the stack. -/
def stackRest : List (TreeNode E) → List E
  | [] => []
  | null :: stack => stackRest stack
  | node d _ right :: stack => d :: toList right ++ stackRest stack

/-- What is still to come. -/
def remaining (self : TreeIterator E) : List E := toList self.current ++ stackRest self.stack

/-- No null pointers are on the stack. -/
def Proper (self : TreeIterator E) : Prop := null ∉ self.stack

theorem stackRest_pushLeft (t : TreeNode E) (stack : List (TreeNode E)) :
    stackRest (pushLeft t stack) = toList t ++ stackRest stack := by
  induction t generalizing stack with
  | null => rfl
  | node d left right ihl _ => rw [pushLeft, ihl, stackRest, toList, List.append_assoc, List.cons_append]

theorem null_notMem_pushLeft (t : TreeNode E) {stack : List (TreeNode E)} (hstack : null ∉ stack) :
    null ∉ pushLeft t stack := by
  induction t generalizing stack with
  | null => exact hstack
  | node d left right ihl _ =>
      refine ihl fun hnull => ?_
      rcases List.mem_cons.mp hnull with hnull | hnull
      · cases hnull
      · exact hstack hnull

theorem iterHasNext_iff {self : TreeIterator E} (hself : Proper self) :
    iterHasNext self = true ↔ remaining self ≠ [] := by
  obtain ⟨stack, current⟩ := self
  cases current with
  | node d left right => simp [iterHasNext, remaining, toList]
  | null =>
      cases stack with
      | nil => simp [iterHasNext, remaining, toList, stackRest]
      | cons t stack =>
          cases t with
          | null => exact (hself List.mem_cons_self).elim
          | node d left right => simp [iterHasNext, remaining, toList, stackRest]

/-- A call gives the first element of what is still to come. -/
theorem iterNext_of_remaining {self : TreeIterator E} (hself : Proper self) {d : E} {rest : List E}
    (hrest : remaining self = d :: rest) :
    (iterNext self).1 = some d ∧ remaining (iterNext self).2 = rest ∧ Proper (iterNext self).2 := by
  have hproper := null_notMem_pushLeft self.current hself
  rw [remaining, ← stackRest_pushLeft] at hrest
  rw [iterNext]
  cases hpush : pushLeft self.current self.stack with
  | nil =>
      rw [hpush] at hrest
      exact (List.cons_ne_nil _ _ hrest.symm).elim
  | cons t stack =>
      rw [hpush] at hrest hproper
      cases t with
      | null => exact (hproper List.mem_cons_self).elim
      | node d' left right =>
          obtain ⟨rfl, rfl⟩ := List.cons_eq_cons.mp hrest
          exact ⟨rfl, rfl, fun hnull => hproper (List.mem_cons_of_mem _ hnull)⟩

/-- The loop over an iterator visits what is still to come, as far as it gets. -/
theorem iterate_eq (fuel : ℕ) {self : TreeIterator E} (hself : Proper self) :
    iterate fuel self = (((remaining self).take fuel).map some, decide ((remaining self).length ≤ fuel)) := by
  induction fuel generalizing self with
  | zero =>
      rw [iterate, List.take_zero]
      refine Prod.ext rfl ?_
      have hnext := iterHasNext_iff hself
      cases hrest : remaining self <;> simp_all
  | succ fuel ih =>
      rw [iterate]
      cases hrest : remaining self with
      | nil =>
          have hnext : ¬iterHasNext self = true := by simp [iterHasNext_iff hself, hrest]
          rw [if_neg hnext]
          rfl
      | cons d rest =>
          have hnext : iterHasNext self = true := by simp [iterHasNext_iff hself, hrest]
          obtain ⟨hdata, hremaining, hproper⟩ := iterNext_of_remaining hself hrest
          rw [if_pos hnext]
          dsimp only
          rw [ih hproper, hdata, hremaining]
          simp

theorem iterate_newTreeIterator (t : TreeNode E) (fuel : ℕ) :
    iterate fuel (newTreeIterator t) = (((toList t).take fuel).map some, decide ((toList t).length ≤ fuel)) := by
  have hrest : remaining (newTreeIterator t) = toList t := List.append_nil _
  have hproper : Proper (newTreeIterator t) := List.not_mem_nil
  rw [iterate_eq fuel hproper, hrest]

end Iterator

/-! ### Runs -/

/-- A call. -/
inductive Op (E : Type) where
  | insert (x : E)
  | remove (x : E)

section Runs

variable (cmp : E → E → ℤ)

/-- A call on a tree. -/
def exec (t : TreeNode E) : Op E → TreeNode E
  | .insert x => insert cmp t x
  | .remove x => remove cmp t x

/-- Some calls on a new tree. -/
def run (ops : List (Op E)) : TreeNode E := ops.foldl (exec cmp) null

/-- A call on the elements. An element that is equal to one that is there is not inserted. -/
def contentsStep (s : Set E) : Op E → Set E
  | .insert x => {y | y ∈ s ∨ (y = x ∧ ∀ z ∈ s, cmp x z ≠ 0)}
  | .remove x => {y | y ∈ s ∧ cmp x y ≠ 0}

/-- The elements that were inserted and not removed. -/
def contents (ops : List (Op E)) : Set E := ops.foldl (contentsStep cmp) ∅

/-- No insertion makes a path of more than 1001 nodes. -/
def Within (t : TreeNode E) : List (Op E) → Prop
  | [] => True
  | .insert x :: ops => place cmp x t ≤ maxTreeDepth + 1 ∧ Within (exec cmp t (.insert x)) ops
  | .remove x :: ops => Within (exec cmp t (.remove x)) ops

/-- A search tree without equal elements. -/
def Ordered : TreeNode E → Prop
  | null => True
  | node d left right =>
      (∀ y ∈ toList left, cmp y d < 0) ∧ (∀ y ∈ toList right, cmp d y < 0) ∧ Ordered left ∧ Ordered right

/-- A search tree on which the recursive functions reach every node. -/
structure Wf (t : TreeNode E) : Prop where
  increasing : Increasing cmp (toList t)
  height_le : height t ≤ maxTreeDepth + 1

variable {cmp}

theorem ordered_of_increasing {t : TreeNode E} (ht : Increasing cmp (toList t)) : Ordered cmp t := by
  induction t with
  | null => trivial
  | node d left right ihl ihr =>
      obtain ⟨hleft, hright, hbetween⟩ := List.pairwise_append.mp ht
      obtain ⟨habove, hright⟩ := List.pairwise_cons.mp hright
      exact ⟨fun y hy => hbetween y hy d List.mem_cons_self, habove, ihl hleft, ihr hright⟩

theorem toList_insert (h : TotalOrder cmp) {t : TreeNode E} (ht : Wf cmp t) (x : E) :
    toList (insert cmp t x) = if place cmp x t ≤ maxTreeDepth + 1 then putIn cmp x (toList t) else toList t := by
  rw [insert, toList_insertRec h x t 0 ht.increasing, Nat.zero_add]

theorem toList_remove (h : TotalOrder cmp) {t : TreeNode E} (ht : Wf cmp t) (x : E) :
    toList (remove cmp t x) = (toList t).filter (cmp x · ≠ 0) :=
  toList_deleteRec h t x 0 ht.increasing ht.height_le

theorem Wf.exec (h : TotalOrder cmp) {t : TreeNode E} (ht : Wf cmp t) (op : Op E) : Wf cmp (exec cmp t op) := by
  cases op with
  | insert x =>
      refine ⟨?_, height_insertRec x t 0 ht.height_le⟩
      rw [SearchTree.exec, toList_insert h ht]
      split_ifs
      · exact ht.increasing.putIn h x
      · exact ht.increasing
  | remove x =>
      refine ⟨?_, (height_deleteRec t x 0).trans ht.height_le⟩
      rw [SearchTree.exec, toList_remove h ht]
      exact List.Pairwise.filter _ ht.increasing

theorem wf_null : Wf cmp null := ⟨List.Pairwise.nil, Nat.zero_le _⟩

theorem Wf.foldl (h : TotalOrder cmp) {t : TreeNode E} (ht : Wf cmp t) (ops : List (Op E)) :
    Wf cmp (ops.foldl (SearchTree.exec cmp) t) := by
  induction ops generalizing t with
  | nil => exact ht
  | cons op ops ih => exact ih (ht.exec h op)

theorem mem_run (h : TotalOrder cmp) {ops : List (Op E)} {t : TreeNode E} (ht : Wf cmp t) {s : Set E}
    (hs : ∀ y, y ∈ toList t ↔ y ∈ s) (hwithin : Within cmp t ops) (y : E) :
    y ∈ toList (ops.foldl (exec cmp) t) ↔ y ∈ ops.foldl (contentsStep cmp) s := by
  induction ops generalizing t s with
  | nil => exact hs y
  | cons op ops ih =>
      cases op with
      | insert x =>
          refine ih (ht.exec h _) (fun z => ?_) hwithin.2
          rw [exec, toList_insert h ht, if_pos hwithin.1, mem_putIn h ht.increasing, contentsStep]
          simp only [hs, Set.mem_ofPred_eq]
      | remove x =>
          refine ih (ht.exec h _) (fun z => ?_) hwithin
          rw [exec, toList_remove h ht, List.mem_filter, contentsStep, Set.mem_ofPred_eq, hs, decide_eq_true_eq]

/-- **Deletion, insertion and both traversals of the tree** -/
theorem run_search_tree (h : TotalOrder cmp) (ops : List (Op E)) (hwithin : Within cmp null ops) :
    let t := run cmp ops
    Ordered cmp t ∧
      Increasing cmp (foreach t) ∧
      (∀ y, y ∈ foreach t ↔ y ∈ contents cmp ops) ∧
      (∀ y, y ∈ toList t ↔ y ∈ contents cmp ops) ∧
      ∀ fuel, (foreach t).length ≤ fuel → iterate fuel (newTreeIterator t) = ((foreach t).map some, true) := by
  intro t
  have ht : Wf cmp t := wf_null.foldl h ops
  have hforeach : foreach t = toList t := foreachRec_eq t 0 ht.height_le
  have hmem : ∀ y, y ∈ toList t ↔ y ∈ contents cmp ops :=
    mem_run h wf_null (fun y => iff_of_false List.not_mem_nil (Set.notMem_empty y)) hwithin
  rw [hforeach]
  refine ⟨ordered_of_increasing ht.increasing, ht.increasing, hmem, hmem, fun fuel hfuel => ?_⟩
  rw [iterate_newTreeIterator, List.take_of_length_le hfuel, decide_eq_true hfuel]

/-- The comparison of the test program. -/
def intCompare (a b : ℤ) : ℤ := if a > b then 1 else if a < b then -1 else 0

theorem totalOrder_intCompare : TotalOrder intCompare where
  swap a b := by
    simp only [intCompare]
    grind
  trans a b c := by
    simp only [intCompare]
    grind

theorem run_search_tree_sample :
    let ops : List (Op ℤ) := [.insert 50, .insert 30, .insert 70, .insert 60, .remove 50, .insert 20]
    iterate 4 (newTreeIterator (run intCompare ops)) = ([some 20, some 30, some 60, some 70], true) := by
  intro ops
  have hwithin : Within intCompare null ops := by
    refine ⟨?_, ?_, ?_, ?_, ?_, trivial⟩ <;> decide
  exact (run_search_tree totalOrder_intCompare ops hwithin).2.2.2.2 4 (by decide)

/-! ### Lost insertions -/

/-- The iterator finds an element that is equal to `x`. -/
def Found (cmp : E → E → ℤ) (t : TreeNode E) (x : E) : Prop :=
  ∃ fuel y, some y ∈ (iterate fuel (newTreeIterator t)).1 ∧ cmp x y = 0

theorem found_iff {t : TreeNode E} {x : E} : Found cmp t x ↔ ∃ y ∈ toList t, cmp x y = 0 := by
  constructor
  · rintro ⟨fuel, y, hy, heq⟩
    rw [iterate_newTreeIterator] at hy
    obtain ⟨z, hz, hzy⟩ := List.mem_map.mp hy
    obtain rfl := Option.some.inj hzy
    exact ⟨z, List.mem_of_mem_take hz, heq⟩
  · rintro ⟨y, hy, heq⟩
    refine ⟨(toList t).length, y, ?_, heq⟩
    rw [iterate_newTreeIterator, List.take_length]
    exact List.mem_map_of_mem hy

/-- The path to an element that is there stays in the tree. -/
theorem place_le_height (h : TotalOrder cmp) {t : TreeNode E} (ht : Increasing cmp (toList t)) {x y : E}
    (hy : y ∈ toList t) (heq : cmp x y = 0) : place cmp x t ≤ height t := by
  induction t with
  | null => exact (List.not_mem_nil hy).elim
  | node d left right ihl ihr =>
      obtain ⟨hleft, hright, hbetween⟩ := List.pairwise_append.mp ht
      obtain ⟨habove, hright⟩ := List.pairwise_cons.mp hright
      rw [place, height]
      rcases List.mem_append.mp hy with hy | hy
      · have hlt : cmp x d < 0 := h.lt_of_le_of_lt heq.le (hbetween y hy d List.mem_cons_self)
        have := ihl hleft hy
        rw [if_pos hlt]
        omega
      rcases List.mem_cons.mp hy with rfl | hy
      · rw [if_neg (by omega), if_neg (by omega)]
        omega
      · have hgt : cmp x d > 0 := by
          rw [gt_iff_lt, h.swap]
          exact h.lt_of_lt_of_le (habove y hy) (h.eq_comm.mp heq).le
        have := ihr hright hy
        rw [if_neg (by omega), if_pos hgt]
        omega

theorem found_insert_iff (h : TotalOrder cmp) {t : TreeNode E} (ht : Wf cmp t) (x : E) :
    Found cmp (insert cmp t x) x ↔ place cmp x t ≤ maxTreeDepth + 1 := by
  rw [found_iff, toList_insert h ht]
  by_cases hplace : place cmp x t ≤ maxTreeDepth + 1
  · rw [if_pos hplace]
    refine iff_of_true ?_ hplace
    by_cases hthere : ∃ y ∈ toList t, cmp x y = 0
    · obtain ⟨y, hy, heq⟩ := hthere
      exact ⟨y, (mem_putIn h ht.increasing).mpr (.inl hy), heq⟩
    · push Not at hthere
      exact ⟨x, (mem_putIn h ht.increasing).mpr (.inr ⟨rfl, hthere⟩), h.self x⟩
  · rw [if_neg hplace]
    refine iff_of_false ?_ hplace
    rintro ⟨y, hy, heq⟩
    exact hplace ((place_le_height h ht.increasing hy heq).trans ht.height_le)

/-- **An insertion is lost exactly when the path is too long** -/
theorem insert_found_iff (h : TotalOrder cmp) (ops : List (Op E)) (x : E) :
    Found cmp (insert cmp (run cmp ops) x) x ↔ place cmp x (run cmp ops) ≤ maxTreeDepth + 1 :=
  found_insert_iff h (wf_null.foldl h ops) x

theorem insert_found_sample :
    let t := run intCompare [.insert 50, .insert 30, .insert 70]
    Found intCompare (insert intCompare t 60) 60 := by
  intro t
  exact (insert_found_iff totalOrder_intCompare [.insert 50, .insert 30, .insert 70] 60).mpr (by decide)

/-- The number of nodes on the way to the right. -/
def rightHeight : TreeNode E → ℕ
  | null => 0
  | node _ _ right => rightHeight right + 1

theorem place_of_above {x : E} {t : TreeNode E} (hx : ∀ y ∈ toList t, cmp x y > 0) :
    place cmp x t = rightHeight t + 1 := by
  induction t with
  | null => rfl
  | node d left right _ ihr =>
      have hd : cmp x d > 0 := hx d (List.mem_append_right _ List.mem_cons_self)
      rw [place, if_neg (by omega), if_pos hd, rightHeight,
        ihr fun y hy => hx y (List.mem_append_right _ (List.mem_cons_of_mem _ hy))]

theorem rightHeight_insertRec {x : E} {t : TreeNode E} (hx : ∀ y ∈ toList t, cmp x y > 0) {depth : ℕ}
    (hdepth : rightHeight t + depth ≤ maxTreeDepth) : rightHeight (insertRec cmp x t depth) = rightHeight t + 1 := by
  induction t generalizing depth with
  | null =>
      rw [rightHeight] at hdepth
      rw [insertRec, if_neg (by omega)]
      rfl
  | node d left right _ ihr =>
      have hd : cmp x d > 0 := hx d (List.mem_append_right _ List.mem_cons_self)
      rw [rightHeight] at hdepth
      rw [insertRec, if_neg (by omega), if_neg (by omega), if_pos hd, rightHeight, rightHeight,
        ihr (fun y hy => hx y (List.mem_append_right _ (List.mem_cons_of_mem _ hy))) (by omega)]

/-- Insertions of the first numbers in ascending order. -/
def ascending (n : ℕ) : List (Op ℤ) := (List.range n).map fun i : ℕ => .insert (i : ℤ)

/-- Insertions in ascending order make a list of the tree. -/
theorem run_ascending (n : ℕ) (hn : n ≤ maxTreeDepth + 1) :
    let t := run intCompare (ascending n)
    (∀ y ∈ toList t, y < n) ∧ rightHeight t = n ∧ Wf intCompare t := by
  induction n with
  | zero => exact ⟨fun y hy => (List.not_mem_nil hy).elim, rfl, wf_null⟩
  | succ n ih =>
      obtain ⟨hlt, hright, hwf⟩ := ih (by omega)
      rw [ascending, List.range_succ, List.map_append, run, List.foldl_append]
      change let t := insert intCompare (run intCompare (ascending n)) n
        (∀ y ∈ toList t, y < ((n + 1 : ℕ) : ℤ)) ∧ rightHeight t = n + 1 ∧ Wf intCompare t
      set t := run intCompare (ascending n)
      have habove : ∀ y ∈ toList t, intCompare n y > 0 := by
        intro y hy
        have := hlt y hy
        rw [intCompare, if_pos (by omega)]
        omega
      refine ⟨fun y hy => ?_, ?_, hwf.exec totalOrder_intCompare (.insert n)⟩
      · have hplace : place intCompare n t ≤ maxTreeDepth + 1 := by
          rw [place_of_above habove, hright]
          exact hn
        rw [toList_insert totalOrder_intCompare hwf, if_pos hplace,
          mem_putIn totalOrder_intCompare hwf.increasing] at hy
        rcases hy with hy | ⟨rfl, -⟩
        · have := hlt y hy
          omega
        · omega
      · change rightHeight (insertRec intCompare n t 0) = n + 1
        rw [rightHeight_insertRec habove (by omega), hright]

theorem insert_ascending_lost :
    ¬Found intCompare (insert intCompare (run intCompare (ascending 1001)) 1001) 1001 := by
  obtain ⟨hlt, hright, hwf⟩ := run_ascending 1001 le_rfl
  rw [found_insert_iff totalOrder_intCompare hwf, place_of_above, hright]
  · decide
  · intro y hy
    have := hlt y hy
    rw [intCompare, if_pos (by omega)]
    omega

end Runs

end SearchTree
