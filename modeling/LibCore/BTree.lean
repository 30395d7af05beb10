import LibCore.CInt
import Mathlib.Order.Basic
import Mathlib.Data.List.Basic
import Mathlib.Tactic

/-!
# The B-Tree

`btree.c`: insertion with preemptive splitting. On the way down every full child is cut in two around its
median, which goes up into the parent, so that there is room wherever the pair is put in the end.

The parallel arrays of keys and values are one list of pairs. An access to a child that is not there has no
result, so it is part of what is proved that none is made; and neither has an insertion that takes `size`, an
`int`, out of its range. Allocations succeed.

## Main definitions

* `splitChild`, `insertNonFull`, `implInsert`: the algorithm.
* `inorder`: the pairs of a tree in order.
* `IsBTree`: the invariant.

## Main results

* `run_isBTree`: after every sequence of insertions, of up to `INT_MAX` pairs, the tree is a B-tree of exactly the
  inserted pairs.
-/

namespace BTree

variable {K V : Type}

/-- `BTreeNode`. -/
inductive BTreeNode (K V : Type) where
  | mk (isLeaf : Bool) (entries : List (K × V)) (children : List (BTreeNode K V))

namespace BTreeNode

/-- `is_leaf`. -/
def isLeaf : BTreeNode K V → Bool
  | mk isLeaf _ _ => isLeaf

/-- The used parts of `keys` and `values`. -/
def entries : BTreeNode K V → List (K × V)
  | mk _ entries _ => entries

/-- The used part of `children`. -/
def children : BTreeNode K V → List (BTreeNode K V)
  | mk _ _ children => children

variable (l : Bool) (es : List (K × V)) (cs : List (BTreeNode K V))

@[simp] theorem isLeaf_mk : (mk l es cs).isLeaf = l := rfl

@[simp] theorem entries_mk : (mk l es cs).entries = es := rfl

@[simp] theorem children_mk : (mk l es cs).children = cs := rfl

end BTreeNode

open BTreeNode

/-! ### Insertion -/

/-- `BTree_split_child`: `y` is the child of `parent` at `i`. -/
def splitChild (t : ℕ) (parent : BTreeNode K V) (i : ℕ) (y : BTreeNode K V) : Option (BTreeNode K V) :=
  let z := mk y.isLeaf ((y.entries.drop t).take (t - 1)) (if y.isLeaf then [] else (y.children.drop t).take t)
  let y' := mk y.isLeaf (y.entries.take (t - 1)) (if y.isLeaf then [] else y.children.take t)
  y.entries[t - 1]?.map fun median =>
    mk parent.isLeaf (parent.entries.insertIdx i median) ((parent.children.set i y').insertIdx (i + 1) z)

section Insert

variable [LinearOrder K]

/-- The loop over the keys from the right, where `n` is `i + 1`: the index behind the last key that is not
greater. -/
def position (entries : List (K × V)) (key : K) : ℕ → ℕ
  | 0 => 0
  | n + 1 => if entries[n]?.any (key < ·.1) then position entries key n else n + 1

/-- `BTree_insert_non_full`, for at most `fuel` levels. -/
def insertNonFull (t : ℕ) : ℕ → BTreeNode K V → K → V → Option (BTreeNode K V)
  | 0, _, _, _ => none
  | fuel + 1, node, key, value =>
      let i := position node.entries key node.entries.length
      if node.isLeaf then some (mk true (node.entries.insertIdx i (key, value)) node.children)
      else
        node.children[i]?.bind fun child =>
          if child.entries.length = 2 * t - 1 then
            (splitChild t node i child).bind fun node =>
              let i := if node.entries[i]?.any (·.1 < key) then i + 1 else i
              node.children[i]?.bind fun child =>
                (insertNonFull t fuel child key value).map fun child =>
                  mk node.isLeaf node.entries (node.children.set i child)
          else
            (insertNonFull t fuel child key value).map fun child =>
              mk node.isLeaf node.entries (node.children.set i child)

/-- The depth of the first leaf. -/
def depth : BTreeNode K V → ℕ
  | mk _ _ [] => 0
  | mk _ _ (c :: _) => depth c + 1

/-- `BTree`. -/
structure Tree (K V : Type) where
  root : BTreeNode K V
  t : ℕ
  size : ℤ

/-- `new_BTree`. -/
def newBTree (t : ℤ) : Tree K V := ⟨mk true [] [], if t < 2 then 2 else t.toNat, 0⟩

/-- `impl_insert`. -/
def implInsert (self : Tree K V) (key : K) (value : V) : Option (Tree K V) :=
  let r := self.root
  (if r.entries.length = 2 * self.t - 1 then
    (splitChild self.t (mk false [] [r]) 0 r).bind fun s => insertNonFull self.t (depth r + 2) s key value
  else insertNonFull self.t (depth r + 1) r key value).bind fun root =>
    if FitsInt (self.size + 1) then some ⟨root, self.t, self.size + 1⟩ else none

/-- A sequence of insertions. -/
def run (self : Tree K V) : List (K × V) → Option (Tree K V)
  | [] => some self
  | (key, value) :: es => (implInsert self key value).bind fun self => run self es

end Insert

/-! ### In order -/

/-- The pairs of a node between those of its children. -/
def weave : List (K × V) → List (List (K × V)) → List (K × V)
  | es, [] => es
  | es, p :: ps => p ++ (es.zip ps).flatMap fun x => x.1 :: x.2

/-- The pairs of a tree, in order. -/
def inorder : BTreeNode K V → List (K × V)
  | mk _ entries children => weave entries (children.attach.map fun c => inorder c.1)
termination_by n => sizeOf n
decreasing_by
  have := List.sizeOf_lt_of_mem c.2
  simp only [mk.sizeOf_spec]
  omega

theorem inorder_mk (isLeaf : Bool) (es : List (K × V)) (cs : List (BTreeNode K V)) :
    inorder (mk isLeaf es cs) = weave es (cs.map inorder) := by
  rw [inorder, List.attach_map_val (f := inorder)]

theorem inorder_leaf (isLeaf : Bool) (es : List (K × V)) : inorder (mk isLeaf es []) = es := by
  rw [inorder_mk, List.map_nil, weave]

/-- The pairs in front of a child: the children before it, each with the pair behind it. -/
def front (es : List (K × V)) (cs : List (BTreeNode K V)) : List (K × V) :=
  (cs.zip es).flatMap fun x => inorder x.1 ++ [x.2]

/-- The pairs behind a child. -/
def back (es : List (K × V)) (cs : List (BTreeNode K V)) : List (K × V) :=
  (es.zip cs).flatMap fun x => x.1 :: inorder x.2

/-- A node seen from one of its children. -/
theorem inorder_focus {isLeaf : Bool} {es₁ es₂ : List (K × V)} {cs₁ cs₂ : List (BTreeNode K V)}
    (hlen : cs₁.length = es₁.length) (c : BTreeNode K V) :
    inorder (mk isLeaf (es₁ ++ es₂) (cs₁ ++ c :: cs₂)) = front es₁ cs₁ ++ (inorder c ++ back es₂ cs₂) := by
  have hback : ∀ (es : List (K × V)) (cs : List (BTreeNode K V)),
      (es.zip (cs.map inorder)).flatMap (fun x => x.1 :: x.2) = back es cs := by
    intro es cs
    rw [back, List.zip_map_right, List.flatMap_map]
    rfl
  rw [inorder_mk]
  induction cs₁ generalizing es₁ with
  | nil =>
      obtain rfl := List.length_eq_zero_iff.mp hlen.symm
      rw [List.nil_append, List.nil_append, List.map_cons, weave, hback]
      rfl
  | cons c₁ cs₁ ih =>
      obtain ⟨e, es₁, rfl⟩ := List.exists_cons_of_length_eq_add_one hlen.symm
      have ih := ih (by simpa using hlen)
      cases cs₁ with
      | nil =>
          obtain rfl := List.length_eq_zero_iff.mp (by simpa using hlen.symm)
          simp only [List.cons_append, List.nil_append, List.map_cons, weave, List.zip_cons_cons,
            List.flatMap_cons, hback, front, List.zip_nil_left, List.flatMap_nil, List.append_assoc]
      | cons c₂ cs₁ =>
          simp only [List.cons_append, List.map_cons, weave, List.zip_cons_cons, List.flatMap_cons, front,
            List.append_assoc] at ih ⊢
          rw [ih]
          simp

/-! ### Halves -/

/-- What a balanced subtree of height `h` is: its leaves lie at one depth, and the nodes below its root have
between `t - 1` and `2 * t - 1` pairs. -/
inductive Balanced (t : ℕ) : ℕ → BTreeNode K V → Prop
  | leaf {es : List (K × V)} : Balanced t 0 (mk true es [])
  | inner {h : ℕ} {es : List (K × V)} {cs : List (BTreeNode K V)} : cs.length = es.length + 1 →
      (∀ c ∈ cs, Balanced t h c) → (∀ c ∈ cs, t - 1 ≤ c.entries.length ∧ c.entries.length ≤ 2 * t - 1) →
      Balanced t (h + 1) (mk false es cs)

/-- A list of pairs is in order. -/
def Sorted [LinearOrder K] (l : List (K × V)) : Prop := l.Pairwise (·.1 ≤ ·.1)

theorem weave_append {a b : List (K × V)} {ps qs : List (List (K × V))} (m : K × V)
    (hps : ps.length = a.length + 1) (hqs : qs ≠ []) :
    weave (a ++ m :: b) (ps ++ qs) = weave a ps ++ m :: weave b qs := by
  obtain ⟨p, ps, rfl⟩ := List.exists_cons_of_length_eq_add_one hps
  obtain ⟨q, qs, rfl⟩ := List.exists_cons_of_ne_nil hqs
  have hlen : a.length = ps.length := by simpa using hps.symm
  simp only [List.cons_append, weave, List.zip_append hlen, List.flatMap_append, List.zip_cons_cons,
    List.flatMap_cons, List.append_assoc]

/-- A **full node** is cut into two halves around its median. -/
theorem Balanced.halves {t h : ℕ} (ht : 2 ≤ t) {y : BTreeNode K V} (hy : Balanced t h y)
    (hfull : y.entries.length = 2 * t - 1) :
    ∃ left m right, left = mk y.isLeaf (y.entries.take (t - 1)) (if y.isLeaf then [] else y.children.take t) ∧
      right = mk y.isLeaf ((y.entries.drop t).take (t - 1))
        (if y.isLeaf then [] else (y.children.drop t).take t) ∧
      y.entries[t - 1]? = some m ∧ Balanced t h left ∧ Balanced t h right ∧ left.entries.length = t - 1 ∧
      right.entries.length = t - 1 ∧ inorder y = inorder left ++ m :: inorder right := by
  have hmedian : t - 1 < y.entries.length := by omega
  have hdrop : (y.entries.drop t).take (t - 1) = y.entries.drop t :=
    List.take_of_length_le (by rw [List.length_drop]; omega)
  have hsplit : y.entries.take (t - 1) ++ y.entries[t - 1] :: y.entries.drop t = y.entries := by
    have h := List.take_append_drop (t - 1) y.entries
    rwa [List.drop_eq_getElem_cons hmedian, show t - 1 + 1 = t by omega] at h
  have hleft : (y.entries.take (t - 1)).length = t - 1 := by rw [List.length_take]; omega
  have hright : (y.entries.drop t).length = t - 1 := by rw [List.length_drop]; omega
  refine ⟨_, y.entries[t - 1], _, rfl, rfl, List.getElem?_eq_getElem hmedian, ?_⟩
  rw [hdrop]
  cases hy with
  | @leaf es =>
      refine ⟨.leaf, .leaf, hleft, hright, ?_⟩
      rw [inorder_mk, inorder_mk, inorder_mk]
      exact hsplit.symm
  | @inner h es cs hlen hcs hbounds =>
      simp only [entries_mk] at hfull hmedian hsplit hleft hright
      have hdropc : (cs.drop t).take t = cs.drop t := List.take_of_length_le (by rw [List.length_drop]; omega)
      have hpart : ∀ {es' : List (K × V)} {cs' : List (BTreeNode K V)}, cs'.length = es'.length + 1 → cs' ⊆ cs →
          Balanced t (h + 1) (mk false es' cs') :=
        fun hlen' hsub => .inner hlen' (fun c hc => hcs c (hsub hc)) fun c hc => hbounds c (hsub hc)
      have htake : (cs.take t).length = (es.take (t - 1)).length + 1 := by rw [List.length_take]; omega
      have hrest : (cs.drop t).length = (es.drop t).length + 1 := by rw [List.length_drop]; omega
      have hne : (cs.drop t).map inorder ≠ [] := by
        intro hnil
        have := congrArg List.length hnil
        simp only [List.length_map, List.length_nil] at this
        omega
      simp only [entries_mk, isLeaf_mk, children_mk, Bool.false_eq_true, if_false, hdropc]
      refine ⟨hpart htake (List.take_subset _ _), hpart hrest (List.drop_subset _ _), hleft, hright, ?_⟩
      rw [inorder_mk, inorder_mk, inorder_mk, ← weave_append _ (by rw [List.length_map, htake]) hne,
        hsplit, ← List.map_append, List.take_append_drop]

theorem insertIdx_append_length {α : Type} (l₁ l₂ : List α) (a : α) :
    (l₁ ++ l₂).insertIdx l₁.length a = l₁ ++ a :: l₂ := by
  induction l₁ with
  | nil => rfl
  | cons b l₁ ih => rw [List.cons_append, List.length_cons, List.insertIdx_succ_cons, ih, List.cons_append]

/-- Splitting a child in its place. -/
theorem splitChild_focus {t h : ℕ} (ht : 2 ≤ t) {y : BTreeNode K V} (hy : Balanced t h y)
    (hfull : y.entries.length = 2 * t - 1) (isLeaf : Bool) {es₁ es₂ : List (K × V)}
    {cs₁ cs₂ : List (BTreeNode K V)} (hlen : cs₁.length = es₁.length) :
    ∃ left m right, splitChild t (mk isLeaf (es₁ ++ es₂) (cs₁ ++ y :: cs₂)) es₁.length y =
        some (mk isLeaf (es₁ ++ m :: es₂) (cs₁ ++ left :: right :: cs₂)) ∧
      Balanced t h left ∧ Balanced t h right ∧ left.entries.length = t - 1 ∧ right.entries.length = t - 1 ∧
      inorder y = inorder left ++ m :: inorder right := by
  obtain ⟨left, m, right, hleft, hright, hm, hrest⟩ := hy.halves ht hfull
  refine ⟨left, m, right, ?_, hrest⟩
  rw [splitChild, ← hleft, ← hright, hm, Option.map_some]
  rw [isLeaf_mk, entries_mk, children_mk, insertIdx_append_length, ← hlen, List.set_append_right _ _ le_rfl,
    Nat.sub_self, List.set_cons_zero, List.append_cons cs₁ left cs₂]
  have hlast : cs₁.length + 1 = (cs₁ ++ [left]).length := by simp
  rw [hlast, insertIdx_append_length, List.append_assoc, List.singleton_append]

/-! ### Where a pair goes -/

section Order

variable [LinearOrder K]

/-- The search stops behind the pairs that are not greater. -/
theorem position_spec {es : List (K × V)} (hsorted : Sorted es) (key : K) {n : ℕ} (hn : n ≤ es.length)
    (habove : ∀ e ∈ es.drop n, key < e.1) :
    position es key n ≤ n ∧ (∀ e ∈ es.take (position es key n), e.1 ≤ key) ∧
      ∀ e ∈ es.drop (position es key n), key < e.1 := by
  induction n with
  | zero => exact ⟨le_rfl, by simp [position], habove⟩
  | succ n ih =>
      have hget : es[n]? = some es[n] := List.getElem?_eq_getElem hn
      rw [position, hget, Option.any_some]
      split_ifs with hgt
      · have hdrop : ∀ e ∈ es.drop n, key < e.1 := by
          rw [List.drop_eq_getElem_cons hn]
          exact List.forall_mem_cons.mpr ⟨by simpa using hgt, habove⟩
        obtain ⟨hle, hbelow, hafter⟩ := ih (by omega) hdrop
        exact ⟨by omega, hbelow, hafter⟩
      · refine ⟨le_rfl, fun e he => ?_, habove⟩
        rw [List.take_succ_eq_append_getElem hn] at he
        have hlast : es[n].1 ≤ key := by simpa using hgt
        rcases List.mem_append.mp he with he | he
        · rw [Sorted, ← List.take_append_drop n es, List.pairwise_append] at hsorted
          exact (hsorted.2.2 e he es[n] (List.drop_eq_getElem_cons hn ▸ List.mem_cons_self)).trans hlast
        · rw [List.mem_singleton.mp he]
          exact hlast

/-- `e` is put into `l` between what is not greater and what is not less. -/
def Inserted (e : K × V) (l l' : List (K × V)) : Prop :=
  ∃ a b, l = a ++ b ∧ l' = a ++ e :: b ∧ (∀ x ∈ a, x.1 ≤ e.1) ∧ ∀ x ∈ b, e.1 ≤ x.1

theorem Inserted.perm {e : K × V} {l l' : List (K × V)} (h : Inserted e l l') : l'.Perm (e :: l) := by
  obtain ⟨a, b, rfl, rfl, -, -⟩ := h
  exact List.perm_middle

theorem Inserted.sorted {e : K × V} {l l' : List (K × V)} (h : Inserted e l l') (hl : Sorted l) : Sorted l' := by
  obtain ⟨a, b, rfl, rfl, ha, hb⟩ := h
  rw [Sorted, List.pairwise_append] at hl ⊢
  refine ⟨hl.1, List.pairwise_cons.mpr ⟨hb, hl.2.1⟩, fun x hx y hy => ?_⟩
  rcases List.mem_cons.mp hy with rfl | hy
  · exact ha x hx
  · exact hl.2.2 x hx y hy

/-- Putting a pair into a part of a list. -/
theorem Inserted.context {e : K × V} {l l' p s : List (K × V)} (h : Inserted e l l') (hp : ∀ x ∈ p, x.1 ≤ e.1)
    (hs : ∀ x ∈ s, e.1 ≤ x.1) : Inserted e (p ++ (l ++ s)) (p ++ (l' ++ s)) := by
  obtain ⟨a, b, rfl, rfl, ha, hb⟩ := h
  refine ⟨p ++ a, b ++ s, by simp, by simp, ?_, ?_⟩
  · exact List.forall_mem_append.mpr ⟨hp, ha⟩
  · exact List.forall_mem_append.mpr ⟨hb, hs⟩

variable {es es₁ es₂ : List (K × V)} {cs cs₁ cs₂ : List (BTreeNode K V)} {e : K × V}

theorem front_le (hsorted : Sorted (front es cs)) (h : ∀ x ∈ es, x.1 ≤ e.1) : ∀ x ∈ front es cs, x.1 ≤ e.1 := by
  intro x hx
  obtain ⟨⟨c, e'⟩, hmem, hx⟩ := List.mem_flatMap.mp hx
  have hpart := (List.pairwise_flatMap.mp hsorted).1 _ hmem
  have he' := h e' (List.of_mem_zip hmem).2
  rcases List.mem_append.mp hx with hx | hx
  · exact ((List.pairwise_append.mp hpart).2.2 x hx e' List.mem_cons_self).trans he'
  · rwa [List.mem_singleton.mp hx]

theorem le_back (hsorted : Sorted (back es cs)) (h : ∀ x ∈ es, e.1 ≤ x.1) : ∀ x ∈ back es cs, e.1 ≤ x.1 := by
  intro x hx
  obtain ⟨⟨e', c⟩, hmem, hx⟩ := List.mem_flatMap.mp hx
  have hpart := (List.pairwise_flatMap.mp hsorted).1 _ hmem
  have he' := h e' (List.of_mem_zip hmem).1
  rcases List.mem_cons.mp hx with rfl | hx
  · exact he'
  · exact he'.trans ((List.pairwise_cons.mp hpart).1 x hx)

/-- Putting a pair into a child puts it into the node. -/
theorem Inserted.focus {isLeaf : Bool} (hlen : cs₁.length = es₁.length) {c c' : BTreeNode K V}
    (hsorted : Sorted (inorder (mk isLeaf (es₁ ++ es₂) (cs₁ ++ c :: cs₂))))
    (hbelow : ∀ x ∈ es₁, x.1 ≤ e.1) (habove : ∀ x ∈ es₂, e.1 ≤ x.1) (h : Inserted e (inorder c) (inorder c')) :
    Inserted e (inorder (mk isLeaf (es₁ ++ es₂) (cs₁ ++ c :: cs₂)))
      (inorder (mk isLeaf (es₁ ++ es₂) (cs₁ ++ c' :: cs₂))) := by
  rw [inorder_focus hlen] at hsorted ⊢
  rw [inorder_focus hlen]
  obtain ⟨hfront, hrest, -⟩ := List.pairwise_append.mp hsorted
  exact h.context (front_le hfront hbelow) (le_back (List.pairwise_append.mp hrest).2.1 habove)

omit [LinearOrder K] in
/-- Splitting a child leaves the order of the pairs. -/
theorem inorder_split {isLeaf : Bool} (hlen : cs₁.length = es₁.length) {c left right : BTreeNode K V} {m : K × V}
    (h : inorder c = inorder left ++ m :: inorder right) :
    inorder (mk isLeaf (es₁ ++ m :: es₂) (cs₁ ++ left :: right :: cs₂)) =
      inorder (mk isLeaf (es₁ ++ es₂) (cs₁ ++ c :: cs₂)) := by
  rw [inorder_focus hlen, inorder_focus hlen, h, back, List.zip_cons_cons, List.flatMap_cons]
  simp [back]

/-- The child that the search leads to. -/
theorem exists_focus (hlen : cs.length = es.length + 1) (hsorted : Sorted es) (key : K) :
    ∃ es₁ es₂ cs₁ c cs₂, es = es₁ ++ es₂ ∧ cs = cs₁ ++ c :: cs₂ ∧ cs₁.length = es₁.length ∧
      position es key es.length = es₁.length ∧ (∀ x ∈ es₁, x.1 ≤ key) ∧ ∀ x ∈ es₂, key < x.1 := by
  obtain ⟨hle, hbelow, habove⟩ := position_spec hsorted key le_rfl (by simp)
  have hlt : position es key es.length < cs.length := by omega
  refine ⟨_, _, cs.take (position es key es.length), cs[position es key es.length],
    cs.drop (position es key es.length + 1), (List.take_append_drop _ es).symm, ?_, ?_, ?_, hbelow, habove⟩
  · rw [← List.drop_eq_getElem_cons hlt, List.take_append_drop]
  · rw [List.length_take, List.length_take]
    omega
  · rw [List.length_take]
    omega

/-- The pairs of a node are in order when all pairs of its tree are. -/
theorem sorted_entries (hlen : cs.length = es.length + 1) {isLeaf : Bool}
    (hsorted : Sorted (inorder (mk isLeaf es cs))) : Sorted es := by
  obtain ⟨c, cs, rfl⟩ := List.exists_cons_of_length_eq_add_one hlen
  have hback : Sorted (back es cs) := by
    have h : inorder (mk isLeaf es (c :: cs)) = front [] [] ++ (inorder c ++ back es cs) :=
      @inorder_focus _ _ _ [] es [] cs rfl c
    rw [h] at hsorted
    exact (List.pairwise_append.mp (List.pairwise_append.mp hsorted).2.1).2.1
  have hsub : es.Sublist (back es cs) := by
    have hlen' : es.length = cs.length := by simpa using hlen.symm
    clear hback hsorted hlen
    induction es generalizing cs with
    | nil => exact List.nil_sublist _
    | cons e es ih =>
        obtain ⟨c', cs, rfl⟩ := List.exists_cons_of_length_eq_add_one hlen'.symm
        rw [back, List.zip_cons_cons, List.flatMap_cons, List.cons_append]
        have hrest : es.length = cs.length := by simpa using hlen'
        exact ((ih cs hrest).trans (List.sublist_append_right _ _)).cons_cons e
  exact hback.sublist hsub

/-- Going down into a child that is not full. -/
theorem insertNonFull_child {t fuel : ℕ} {key : K} {value : V} {c : BTreeNode K V}
    (hlen : cs₁.length = es₁.length) (hposition : position (es₁ ++ es₂) key (es₁ ++ es₂).length = es₁.length)
    (hroom : c.entries.length ≠ 2 * t - 1) :
    insertNonFull t (fuel + 1) (mk false (es₁ ++ es₂) (cs₁ ++ c :: cs₂)) key value =
      (insertNonFull t fuel c key value).map fun c' => mk false (es₁ ++ es₂) (cs₁ ++ c' :: cs₂) := by
  rw [insertNonFull]
  simp only [entries_mk, isLeaf_mk, children_mk, Bool.false_eq_true, if_false, hposition, ← hlen,
    List.getElem?_append_right le_rfl, Nat.sub_self, List.getElem?_cons_zero, Option.bind_some, if_neg hroom,
    List.set_append_right _ _ le_rfl, List.set_cons_zero]

/-- Going down into one half of a child that was full. -/
theorem insertNonFull_split {t fuel : ℕ} {key : K} {value : V} {c left right : BTreeNode K V} {m : K × V}
    (hlen : cs₁.length = es₁.length) (hposition : position (es₁ ++ es₂) key (es₁ ++ es₂).length = es₁.length)
    (hfull : c.entries.length = 2 * t - 1)
    (hsplit : splitChild t (mk false (es₁ ++ es₂) (cs₁ ++ c :: cs₂)) es₁.length c =
      some (mk false (es₁ ++ m :: es₂) (cs₁ ++ left :: right :: cs₂))) :
    insertNonFull t (fuel + 1) (mk false (es₁ ++ es₂) (cs₁ ++ c :: cs₂)) key value =
      if m.1 < key then
        (insertNonFull t fuel right key value).map fun c' =>
          mk false (es₁ ++ m :: es₂) (cs₁ ++ left :: c' :: cs₂)
      else
        (insertNonFull t fuel left key value).map fun c' =>
          mk false (es₁ ++ m :: es₂) (cs₁ ++ c' :: right :: cs₂) := by
  have hchild : (cs₁ ++ c :: cs₂)[es₁.length]? = some c := by simp [← hlen]
  have hmedian : (es₁ ++ m :: es₂)[es₁.length]? = some m := by simp
  rw [insertNonFull]
  simp only [entries_mk, isLeaf_mk, children_mk, Bool.false_eq_true, if_false, hposition, hchild,
    Option.bind_some, if_pos hfull, hsplit, hmedian, Option.any_some, decide_eq_true_eq]
  split_ifs
  · have hright : (cs₁ ++ left :: right :: cs₂)[es₁.length + 1]? = some right := by simp [← hlen]
    have hset : ∀ c', (cs₁ ++ left :: right :: cs₂).set (es₁.length + 1) c' = cs₁ ++ left :: c' :: cs₂ := by
      intro c'
      rw [← hlen, List.set_append_right _ _ (Nat.le_add_right _ 1), Nat.add_sub_cancel_left]
      rfl
    simp only [hright, Option.bind_some, hset]
  · have hleft : (cs₁ ++ left :: right :: cs₂)[es₁.length]? = some left := by simp [← hlen]
    have hset : ∀ c', (cs₁ ++ left :: right :: cs₂).set es₁.length c' = cs₁ ++ c' :: right :: cs₂ := by
      intro c'
      rw [← hlen, List.set_append_right _ _ le_rfl, Nat.sub_self]
      rfl
    simp only [hleft, Option.bind_some, hset]

/-- Insertion into a node that is **not full**, by induction on its height. -/
theorem insertNonFull_spec {t h : ℕ} (ht : 2 ≤ t) (key : K) (value : V) {fuel : ℕ} (hfuel : h < fuel)
    {node : BTreeNode K V} (hnode : Balanced t h node) (hroom : node.entries.length < 2 * t - 1)
    (hsorted : Sorted (inorder node)) :
    ∃ node', insertNonFull t fuel node key value = some node' ∧ Balanced t h node' ∧
      node.entries.length ≤ node'.entries.length ∧ node'.entries.length ≤ 2 * t - 1 ∧
      Inserted (key, value) (inorder node) (inorder node') := by
  induction h generalizing fuel node with
  | zero =>
      obtain ⟨fuel, rfl⟩ : ∃ n, fuel = n + 1 := ⟨fuel - 1, by omega⟩
      cases hnode with
      | @leaf es =>
          rw [inorder_leaf] at hsorted ⊢
          obtain ⟨hle, hbelow, habove⟩ := position_spec hsorted key le_rfl (by simp)
          refine ⟨mk true (es.insertIdx (position es key es.length) (key, value)) [], rfl, .leaf, ?_, ?_, ?_⟩
          · rw [entries_mk, entries_mk, List.length_insertIdx_of_le_length hle]
            omega
          · rw [entries_mk] at hroom ⊢
            rw [List.length_insertIdx_of_le_length hle]
            omega
          · refine ⟨_, _, (List.take_append_drop (position es key es.length) es).symm, ?_, hbelow,
              fun x hx => (habove x hx).le⟩
            have hlen : (es.take (position es key es.length)).length = position es key es.length := by
              rw [List.length_take]
              omega
            rw [inorder_leaf, ← insertIdx_append_length, hlen, List.take_append_drop]
  | succ h ih =>
      obtain ⟨fuel, rfl⟩ : ∃ n, fuel = n + 1 := ⟨fuel - 1, by omega⟩
      cases hnode with
      | @inner _ es cs hlen hcs hbounds =>
          obtain ⟨es₁, es₂, cs₁, c, cs₂, rfl, rfl, hlen₁, hposition, hbelow, habove⟩ :=
            exists_focus hlen (sorted_entries hlen hsorted) key
          have hdeep : h < fuel := by omega
          have hc : c ∈ cs₁ ++ c :: cs₂ := by simp
          have habove' : ∀ x ∈ es₂, key ≤ x.1 := fun x hx => (habove x hx).le
          have hpart : Sorted (inorder c) := by
            rw [inorder_focus hlen₁] at hsorted
            exact (List.pairwise_append.mp (List.pairwise_append.mp hsorted).2.1).1
          rw [entries_mk] at hroom ⊢
          by_cases hfull : c.entries.length = 2 * t - 1
          · obtain ⟨left, m, right, hsplit, hleft, hright, hlenl, hlenr, hinorder⟩ :=
              @splitChild_focus K V t h ht c (hcs c hc) hfull false es₁ es₂ cs₁ cs₂ hlen₁
            rw [← inorder_split hlen₁ hinorder] at hsorted ⊢
            rw [hinorder] at hpart
            obtain ⟨hpartl, hpartr, -⟩ := List.pairwise_append.mp hpart
            have hnode : ∀ {a b : BTreeNode K V}, Balanced t h a → Balanced t h b → t - 1 ≤ a.entries.length →
                a.entries.length ≤ 2 * t - 1 → t - 1 ≤ b.entries.length → b.entries.length ≤ 2 * t - 1 →
                Balanced t (h + 1) (mk false (es₁ ++ m :: es₂) (cs₁ ++ a :: b :: cs₂)) := by
              intro a b ha hb hla hma hlb hmb
              simp only [List.forall_mem_append, List.forall_mem_cons] at hcs hbounds
              refine .inner (by simp at hlen ⊢; omega) ?_ ?_
              · simp only [List.forall_mem_append, List.forall_mem_cons]
                exact ⟨hcs.1, ha, hb, hcs.2.2⟩
              · simp only [List.forall_mem_append, List.forall_mem_cons]
                exact ⟨hbounds.1, ⟨hla, hma⟩, ⟨hlb, hmb⟩, hbounds.2.2⟩
            have hlenm : (es₁ ++ m :: es₂).length = (es₁ ++ es₂).length + 1 := by
              rw [List.length_append, List.length_append, List.length_cons, Nat.add_assoc]
            by_cases hm : m.1 < key
            · obtain ⟨c', hinsert, hc', hle, hmost, hput⟩ :=
                ih hdeep hright (by omega) (List.pairwise_cons.mp hpartr).2
              refine ⟨mk false (es₁ ++ m :: es₂) (cs₁ ++ left :: c' :: cs₂), ?_, ?_, ?_, ?_, ?_⟩
              · rw [insertNonFull_split hlen₁ hposition hfull hsplit, if_pos hm, hinsert, Option.map_some]
              · exact hnode hleft hc' (by omega) (by omega) (by omega) hmost
              · rw [entries_mk]
                omega
              · rw [entries_mk]
                omega
              · rw [List.append_cons es₁ m es₂, List.append_cons cs₁ left (right :: cs₂)] at hsorted ⊢
                rw [List.append_cons cs₁ left (c' :: cs₂)]
                refine hput.focus (by simpa using hlen₁) hsorted ?_ habove'
                simp only [List.forall_mem_append, List.forall_mem_singleton]
                exact ⟨hbelow, hm.le⟩
            · obtain ⟨c', hinsert, hc', hle, hmost, hput⟩ := ih hdeep hleft (by omega) hpartl
              refine ⟨mk false (es₁ ++ m :: es₂) (cs₁ ++ c' :: right :: cs₂), ?_, ?_, ?_, ?_, ?_⟩
              · rw [insertNonFull_split hlen₁ hposition hfull hsplit, if_neg hm, hinsert, Option.map_some]
              · exact hnode hc' hright (by omega) hmost (by omega) (by omega)
              · rw [entries_mk]
                omega
              · rw [entries_mk]
                omega
              · exact hput.focus hlen₁ hsorted hbelow (List.forall_mem_cons.mpr ⟨not_lt.mp hm, habove'⟩)
          · have hless : c.entries.length < 2 * t - 1 := lt_of_le_of_ne (hbounds c hc).2 hfull
            obtain ⟨c', hinsert, hc', hle, hmost, hput⟩ := ih hdeep (hcs c hc) hless hpart
            refine ⟨mk false (es₁ ++ es₂) (cs₁ ++ c' :: cs₂), ?_, ?_, le_rfl, hroom.le, ?_⟩
            · rw [insertNonFull_child hlen₁ hposition hfull, hinsert, Option.map_some]
            · refine .inner (by simpa using hlen) ?_ ?_
              · simp only [List.forall_mem_append, List.forall_mem_cons] at hcs ⊢
                exact ⟨hcs.1, hc', hcs.2.2⟩
              · have hbound := (hbounds c hc).1
                simp only [List.forall_mem_append, List.forall_mem_cons] at hbounds ⊢
                exact ⟨hbounds.1, ⟨by omega, hmost⟩, hbounds.2.2⟩
            · exact hput.focus hlen₁ hsorted hbelow habove'

/-! ### Trees -/

omit [LinearOrder K] in
theorem Balanced.depth_eq {t h : ℕ} {node : BTreeNode K V} (hnode : Balanced t h node) : depth node = h := by
  induction hnode with
  | leaf => rw [depth]
  | inner hlen _ _ ih =>
      obtain ⟨c, cs, rfl⟩ := List.exists_cons_of_length_eq_add_one hlen
      rw [depth, ih c List.mem_cons_self]

/-- The children of a node are kept apart by its pairs. -/
def Separates (es : List (K × V)) (cs : List (BTreeNode K V)) : Prop :=
  ∀ i e, es[i]? = some e →
    (∀ c, cs[i]? = some c → ∀ x ∈ inorder c, x.1 ≤ e.1) ∧ ∀ c, cs[i + 1]? = some c → ∀ x ∈ inorder c, e.1 ≤ x.1

/-- The **invariant** of a subtree of height `h`, where the node has at least `least` pairs. -/
inductive IsBTree (t : ℕ) : ℕ → ℕ → BTreeNode K V → Prop
  | leaf {least : ℕ} {es : List (K × V)} : least ≤ es.length → es.length ≤ 2 * t - 1 → Sorted es →
      IsBTree t 0 least (mk true es [])
  | inner {h least : ℕ} {es : List (K × V)} {cs : List (BTreeNode K V)} : least ≤ es.length →
      es.length ≤ 2 * t - 1 → Sorted es → cs.length = es.length + 1 → Separates es cs →
      (∀ c ∈ cs, IsBTree t h (t - 1) c) → IsBTree t (h + 1) least (mk false es cs)

/-- A balanced tree with its pairs in order is a B-tree. -/
theorem Balanced.isBTree {t h least : ℕ} {node : BTreeNode K V} (hnode : Balanced t h node)
    (hleast : least ≤ node.entries.length) (hmost : node.entries.length ≤ 2 * t - 1)
    (hsorted : Sorted (inorder node)) : IsBTree t h least node := by
  induction hnode generalizing least with
  | leaf => exact .leaf hleast hmost (by rwa [inorder_leaf] at hsorted)
  | @inner h es cs hlen hcs hbounds ih =>
      -- the node from its child at `i`
      have hfocus : ∀ i (hi : i < cs.length), inorder (mk false es cs) =
          front (es.take i) (cs.take i) ++ (inorder cs[i] ++ back (es.drop i) (cs.drop (i + 1))) := by
        intro i hi
        have hlen' : (cs.take i).length = (es.take i).length := by
          rw [List.length_take, List.length_take]
          omega
        rw [← inorder_focus hlen', List.take_append_drop, ← List.drop_eq_getElem_cons hi, List.take_append_drop]
      have hseparates : Separates es cs := by
        intro i e he
        obtain ⟨hi, rfl⟩ := List.getElem?_eq_some_iff.mp he
        have hi' : i + 1 < cs.length := by omega
        have hnext : back (es.drop i) (cs.drop (i + 1)) =
            es[i] :: (inorder cs[i + 1] ++ back (es.drop (i + 1)) (cs.drop (i + 2))) := by
          rw [List.drop_eq_getElem_cons hi, List.drop_eq_getElem_cons hi', back, List.zip_cons_cons,
            List.flatMap_cons, List.cons_append]
          rfl
        rw [hfocus i (by omega), hnext] at hsorted
        obtain ⟨-, hback, hapart⟩ := List.pairwise_append.mp (List.pairwise_append.mp hsorted).2.1
        constructor
        · intro c hc x hx
          obtain ⟨_, rfl⟩ := List.getElem?_eq_some_iff.mp hc
          exact hapart x hx _ List.mem_cons_self
        · intro c hc x hx
          obtain ⟨_, rfl⟩ := List.getElem?_eq_some_iff.mp hc
          exact (List.pairwise_cons.mp hback).1 x (List.mem_append_left _ hx)
      refine .inner hleast hmost (sorted_entries hlen hsorted) hlen hseparates fun c hc => ?_
      · obtain ⟨i, hi, rfl⟩ := List.mem_iff_getElem.mp hc
        have hbound := hbounds _ hc
        refine ih _ hc hbound.1 hbound.2 ?_
        rw [hfocus i hi] at hsorted
        exact (List.pairwise_append.mp (List.pairwise_append.mp hsorted).2.1).1

/-- What every sequence of insertions keeps: the tree is balanced, and holds exactly the pairs of `es`. -/
structure Holds (tree : Tree K V) (es : List (K × V)) : Prop where
  two_le : 2 ≤ tree.t
  balanced : ∃ h, Balanced tree.t h tree.root
  length_le : tree.root.entries.length ≤ 2 * tree.t - 1
  sorted : Sorted (inorder tree.root)
  perm : (inorder tree.root).Perm es
  size_eq : tree.size = es.length

theorem holds_newBTree (t : ℤ) : Holds (newBTree t : Tree K V) [] where
  two_le := by
    simp only [newBTree]
    split_ifs <;> omega
  balanced := ⟨0, .leaf⟩
  length_le := Nat.zero_le _
  sorted := by
    rw [newBTree, inorder_leaf]
    exact List.Pairwise.nil
  perm := by rw [newBTree, inorder_leaf]
  size_eq := rfl

/-- One insertion. -/
theorem Holds.implInsert {self : Tree K V} {es : List (K × V)} (h : Holds self es) (key : K) (value : V)
    (hroom : es.length < 2147483647) :
    ∃ self', implInsert self key value = some self' ∧ self'.t = self.t ∧ Holds self' ((key, value) :: es) := by
  obtain ⟨height, hbalanced⟩ := h.balanced
  have hfits : FitsInt (self.size + 1) := by
    rw [h.size_eq, FitsInt]
    omega
  have hresult : ∀ {height' : ℕ} {root' : BTreeNode K V}, Balanced self.t height' root' →
      root'.entries.length ≤ 2 * self.t - 1 → Inserted (key, value) (inorder self.root) (inorder root') →
      Holds ⟨root', self.t, self.size + 1⟩ ((key, value) :: es) := fun hb hl hput =>
    { two_le := h.two_le
      balanced := ⟨_, hb⟩
      length_le := hl
      sorted := hput.sorted h.sorted
      perm := hput.perm.trans (h.perm.cons _)
      size_eq := by simp [h.size_eq] }
  have hdepth := hbalanced.depth_eq
  have ht := h.two_le
  by_cases hfull : self.root.entries.length = 2 * self.t - 1
  · obtain ⟨left, m, right, hsplit, hleft, hright, hlenl, hlenr, hinorder⟩ :=
      @splitChild_focus K V self.t height ht self.root hbalanced hfull false [] [] [] [] rfl
    have hs : Balanced self.t (height + 1) (BTreeNode.mk false [m] [left, right]) := by
      refine .inner rfl ?_ ?_
      · simp [hleft, hright]
      · simp [hlenl, hlenr]
        omega
    have hsame : inorder (BTreeNode.mk false [m] [left, right]) = inorder self.root := by
      rw [hinorder, inorder_mk]
      simp [weave]
    have hroom : (BTreeNode.mk false [m] [left, right]).entries.length < 2 * self.t - 1 := by
      rw [entries_mk, List.length_singleton]
      omega
    obtain ⟨root', hinsert, hroot', -, hmost, hput⟩ := insertNonFull_spec ht key value
      (show height + 1 < depth self.root + 2 by omega) hs hroom (hsame ▸ h.sorted)
    refine ⟨⟨root', self.t, self.size + 1⟩, ?_, rfl, hresult hroot' hmost (hsame ▸ hput)⟩
    rw [List.append_nil, List.nil_append, List.nil_append, List.length_nil] at hsplit
    rw [BTree.implInsert, if_pos hfull, hsplit, Option.bind_some, List.nil_append, hinsert, Option.bind_some,
      if_pos hfits]
  · obtain ⟨root', hinsert, hroot', -, hmost, hput⟩ := insertNonFull_spec ht key value
      (show height < depth self.root + 1 by omega) hbalanced (lt_of_le_of_ne h.length_le hfull) h.sorted
    refine ⟨⟨root', self.t, self.size + 1⟩, ?_, rfl, hresult hroot' hmost hput⟩
    rw [BTree.implInsert, if_neg hfull, hinsert, Option.bind_some, if_pos hfits]

theorem Holds.run {self : Tree K V} {done : List (K × V)} (h : Holds self done) (es : List (K × V))
    (hroom : es.length + done.length ≤ 2147483647) :
    ∃ self', run self es = some self' ∧ self'.t = self.t ∧ Holds self' (es.reverse ++ done) := by
  induction es generalizing self done with
  | nil => exact ⟨self, rfl, rfl, h⟩
  | cons e es ih =>
      rw [List.length_cons] at hroom
      obtain ⟨self₁, hinsert, ht₁, h₁⟩ := h.implInsert e.1 e.2 (by omega)
      obtain ⟨self₂, hrun, ht₂, h₂⟩ := ih h₁ (by rw [List.length_cons]; omega)
      refine ⟨self₂, ?_, ht₂.trans ht₁, ?_⟩
      · rw [BTree.run, hinsert, Option.bind_some, hrun]
      · rwa [List.reverse_cons, List.append_assoc, List.singleton_append]

/-- **Insertion.** For every degree and every sequence of insertions into a new tree, of as many pairs as an
`int` counts, no access goes wrong, and the result is a B-tree; its pairs in order are the inserted ones, sorted
by key; and its size is their number. -/
theorem run_isBTree (t : ℤ) (es : List (K × V)) (hroom : es.length ≤ 2147483647) :
    ∃ self, run (newBTree t) es = some self ∧ (2 ≤ t → (self.t : ℤ) = t) ∧
      (∃ h, IsBTree self.t h 0 self.root) ∧ Sorted (inorder self.root) ∧ (inorder self.root).Perm es ∧
      self.size = es.length := by
  obtain ⟨self, hrun, ht, h⟩ := (holds_newBTree t).run es hroom
  obtain ⟨height, hbalanced⟩ := h.balanced
  refine ⟨self, hrun, fun htwo => ?_, ⟨height, hbalanced.isBTree (Nat.zero_le _) h.length_le h.sorted⟩, h.sorted,
    ?_, ?_⟩
  · have hdegree : (newBTree t : Tree K V).t = t.toNat := if_neg (by omega)
    rw [ht, hdegree]
    omega
  · refine h.perm.trans ?_
    rw [List.append_nil]
    exact List.reverse_perm es
  · rw [h.size_eq, List.append_nil, List.length_reverse]

/-- Three insertions. -/
theorem run_isBTree_sample :
    ∃ self : Tree ℕ Char, run (newBTree 2) [(3, 'c'), (1, 'a'), (2, 'b')] = some self ∧
      (2 ≤ (2 : ℤ) → (self.t : ℤ) = 2) ∧ (∃ h, IsBTree self.t h 0 self.root) ∧ Sorted (inorder self.root) ∧
      (inorder self.root).Perm [(3, 'c'), (1, 'a'), (2, 'b')] ∧ self.size = 3 :=
  run_isBTree 2 [(3, 'c'), (1, 'a'), (2, 'b')] (by decide)

end Order

end BTree
