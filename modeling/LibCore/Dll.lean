import Mathlib.Data.List.Basic
import Mathlib.Data.List.Nodup
import Mathlib.Logic.Function.Basic
import Mathlib.Tactic

/-!
# Doubly Linked Lists and Walks over Them

Nodes are numbers, and a list is a head with the `next` and `prev` link of every node; nodes
outside the list have no links. `Links.Represents` ties the links to the list of the nodes, and
pushing and unlinking are what they are on lists.

A walk saves the successor of a node before it handles the node. Handling may unlink nodes, also
the saved one, whose links are then cleared: the walk ends there and misses what was behind.
`walk_complete_iff` says when a walk misses nothing.

## Main results

* `Links.Represents.pushFront`, `Links.Represents.unlink`.
* `walk_complete_iff`: a walk visits every node that stays linked exactly if every round leaves
  the saved successor linked or nothing behind it.
-/

namespace Dll

/-- The head of a list and the links of its nodes. -/
@[ext] structure Links where
  head : Option ℕ
  next : ℕ → Option ℕ
  prev : ℕ → Option ℕ

namespace Links

/-- The links are those of a list of nodes. -/
structure Represents (l : Links) (nodes : List ℕ) : Prop where
  nodup : nodes.Nodup
  head : l.head = nodes.head?
  inner : ∀ a c b, nodes = a ++ c :: b → l.next c = b.head? ∧ l.prev c = a.getLast?
  outer : ∀ c, c ∉ nodes → l.next c = none ∧ l.prev c = none

/-- A new node in front. -/
def pushFront (l : Links) (c : ℕ) : Links where
  head := some c
  next := Function.update l.next c l.head
  prev := match l.head with
    | some h => Function.update l.prev h (some c)
    | none => l.prev

/-- Take a node out and clear its links. -/
def unlink (l : Links) (c : ℕ) : Links where
  head := match l.prev c with
    | some _ => l.head
    | none => if l.head = some c then l.next c else l.head
  next := fun d => if d = c then none else if l.prev c = some d then l.next c else l.next d
  prev := fun d => if d = c then none else if l.next c = some d then l.prev c else l.prev d

/-- The links of no node. -/
theorem represents_nil : Represents ⟨none, fun _ => none, fun _ => none⟩ [] where
  nodup := List.nodup_nil
  head := rfl
  inner a c b h := by simp at h
  outer _ _ := ⟨rfl, rfl⟩

/-- Pushing a node that is not in the list. -/
theorem Represents.pushFront {l : Links} {nodes : List ℕ} (h : l.Represents nodes) {c : ℕ}
    (hc : c ∉ nodes) : (l.pushFront c).Represents (c :: nodes) where
  nodup := List.nodup_cons.mpr ⟨hc, h.nodup⟩
  head := rfl
  inner a d b hnodes := by
    cases a with
    | nil =>
        obtain ⟨rfl, rfl⟩ : c = d ∧ nodes = b := by simpa using hnodes
        refine ⟨by simp [Links.pushFront, h.head], ?_⟩
        have hne : l.head ≠ some c := by
          rw [h.head]
          exact fun hhead => hc (List.mem_of_mem_head? hhead)
        cases hhead : l.head with
        | none => simpa [Links.pushFront, hhead] using (h.outer c hc).2
        | some x =>
            have hcx : c ≠ x := fun hcx => hne (hcx ▸ hhead)
            simpa [Links.pushFront, hhead, hcx] using (h.outer c hc).2
    | cons x a =>
        obtain ⟨rfl, rfl⟩ : c = x ∧ nodes = a ++ d :: b := by simpa using hnodes
        obtain ⟨hnext, hprev⟩ := h.inner a d b rfl
        have hdc : d ≠ c := fun hdc => hc (by simp [hdc])
        refine ⟨by simpa [Links.pushFront, hdc] using hnext, ?_⟩
        cases a with
        | nil => simp [Links.pushFront, h.head]
        | cons y a =>
            have hdy : d ≠ y := by
              rintro rfl
              simpa using h.nodup
            simpa [Links.pushFront, h.head, hdy] using hprev
  outer d hd := by
    obtain ⟨hdc, hdn⟩ : d ≠ c ∧ d ∉ nodes := by simpa using hd
    obtain ⟨hnext, hprev⟩ := h.outer d hdn
    refine ⟨by simpa [Links.pushFront, hdc] using hnext, ?_⟩
    cases hhead : l.head with
    | none => simpa [Links.pushFront, hhead] using hprev
    | some x =>
        have hdx : d ≠ x := by
          rintro rfl
          exact hdn (List.mem_of_mem_head? (h.head ▸ hhead))
        simpa [Links.pushFront, hhead, hdx] using hprev

/-- Unlinking a node of the list. -/
theorem Represents.unlink {l : Links} {a b : List ℕ} {c : ℕ} (h : l.Represents (a ++ c :: b)) :
    (l.unlink c).Represents (a ++ b) := by
  obtain ⟨hnext, hprev⟩ := h.inner a c b rfl
  have hnodup := h.nodup
  have hca : c ∉ a := fun hmem => by
    have := List.disjoint_of_nodup_append hnodup hmem
    simp at this
  have hcb : c ∉ b := (List.nodup_cons.mp (List.nodup_append.mp hnodup).2.1).1
  refine ⟨?_, ?_, fun a' d b' hd => ?_, fun d hd => ?_⟩
  · exact (List.perm_middle.nodup_iff.mp hnodup).of_cons
  · cases a with
    | nil => simp [Links.unlink, hprev, h.head, hnext]
    | cons x a =>
        have hsome : (x :: a).getLast? = some ((x :: a).getLast (by simp)) :=
          List.getLast?_eq_some_getLast _
        simp [Links.unlink, hprev, hsome, h.head]
  · have hdc : d ≠ c := by
      rintro rfl
      have hmem : d ∈ a ++ b := by rw [hd]; simp
      exact (List.mem_append.mp hmem).elim hca hcb
    simp only [Links.unlink, if_neg hdc, hnext, hprev]
    have hright : ∀ a₂, b = a₂ ++ d :: b' → a' = a ++ a₂ →
        (if a.getLast? = some d then b.head? else l.next d) = b'.head? ∧
          (if b.head? = some d then a.getLast? else l.prev d) = a'.getLast? := by
      rintro a₂ rfl rfl
      -- the node is behind the one that leaves
      obtain ⟨hdnext, hdprev⟩ := h.inner (a ++ c :: a₂) d b' (by simp)
      have hda : a.getLast? ≠ some d := fun hlast =>
        List.disjoint_of_nodup_append hnodup (List.mem_of_mem_getLast? hlast) (by simp)
      rw [if_neg hda]
      refine ⟨hdnext, ?_⟩
      cases a₂ with
      | nil => simp
      | cons x a₂ =>
          have hxd : x ≠ d := by
            rintro rfl
            have := (List.nodup_cons.mp (List.nodup_append.mp hnodup).2.1).2
            simp at this
          rw [if_neg (by simpa using hxd), hdprev]
          simp [List.getLast?_append]
    obtain ⟨a₂, ha', hb⟩ | ⟨b₁, ha, hb⟩ := List.append_eq_append_iff.mp hd
    · exact hright a₂ hb ha'
    · cases b₁ with
      | nil => exact hright [] (by simpa using hb.symm) (by simpa using ha.symm)
      | cons x b₁ =>
          -- the node is before the one that leaves
          obtain ⟨rfl, rfl⟩ : d = x ∧ b' = b₁ ++ b := by simpa using hb
          subst ha
          obtain ⟨hdnext, hdprev⟩ := h.inner a' d (b₁ ++ c :: b) (by simp)
          have hdb : b.head? ≠ some d := fun hhead =>
            List.disjoint_of_nodup_append hnodup (a := d) (by simp)
              (List.mem_cons_of_mem _ (List.mem_of_mem_head? hhead))
          rw [if_neg hdb]
          refine ⟨?_, hdprev⟩
          cases b₁ with
          | nil => simp
          | cons y b₁ =>
              have hlast : (a' ++ d :: y :: b₁).getLast? ≠ some d := by
                intro hlast
                have hmem : d ∈ y :: b₁ := by
                  apply List.mem_of_mem_getLast?
                  simpa [List.getLast?_append] using hlast
                have hd' := (List.nodup_append.mp (List.nodup_append.mp hnodup).1).2.1
                exact (List.nodup_cons.mp hd').1 hmem
              rw [if_neg hlast, hdnext]
              simp
  · by_cases hdc : d = c
    · simp [Links.unlink, hdc]
    · have hout : d ∉ a ++ c :: b := by
        simp only [List.mem_append, List.mem_cons] at hd ⊢
        tauto
      obtain ⟨hdnext, hdprev⟩ := h.outer d hout
      have hda : a.getLast? ≠ some d := fun hlast =>
        hd (List.mem_append_left _ (List.mem_of_mem_getLast? hlast))
      have hdb : b.head? ≠ some d := fun hhead =>
        hd (List.mem_append_right _ (List.mem_of_mem_head? hhead))
      simp [Links.unlink, hdc, hnext, hprev, hda, hdb, hdnext, hdprev]

/-- The nodes that are found from a node on, for at most `fuel` of them. -/
def follow (next : ℕ → Option ℕ) : ℕ → Option ℕ → List ℕ
  | 0, _ => []
  | _ + 1, none => []
  | fuel + 1, some c => c :: follow next fuel (next c)

/-- Following the links from the head finds the list. -/
theorem Represents.follow_eq {l : Links} {nodes : List ℕ} (h : l.Represents nodes) {fuel : ℕ}
    (hfuel : nodes.length ≤ fuel) : follow l.next fuel l.head = nodes := by
  have hfrom (fuel : ℕ) : ∀ a b, nodes = a ++ b → b.length ≤ fuel →
      follow l.next fuel b.head? = b := by
    induction fuel with
    | zero =>
        intro a b _ hlen
        rw [List.length_eq_zero_iff.mp (Nat.le_zero.mp hlen)]
        rfl
    | succ fuel ih =>
        intro a b hnodes hlen
        cases b with
        | nil => rfl
        | cons c b =>
            rw [List.head?_cons, follow, (h.inner a c b hnodes).1,
              ih (a ++ [c]) b (by simp [hnodes]) (by simpa using hlen)]
  rw [h.head]
  exact hfrom fuel [] nodes rfl hfuel

end Links

/-! ### Walks -/

section Walk

variable {S : Type} (next : S → ℕ → Option ℕ) (handle : ℕ → S → S) (links : S → List ℕ)

/-- A walk from a node on, for at most `fuel` rounds: the nodes it visits, and the state. -/
def walk : ℕ → Option ℕ → S → List ℕ × S
  | 0, _, s => ([], s)
  | _ + 1, none, s => ([], s)
  | fuel + 1, some c, s =>
      let rest := walk fuel (next s c) (handle c s)
      (c :: rest.1, rest.2)

/-- The nodes behind `d`. -/
def behind (nodes : List ℕ) (d : ℕ) : List ℕ := (nodes.dropWhile (· ≠ d)).drop 1

/-- Every round of a walk leaves the saved successor linked, or nothing of what was behind it. -/
def Kept : ℕ → Option ℕ → S → Prop
  | 0, _, _ => True
  | _ + 1, none, _ => True
  | fuel + 1, some c, s =>
      (∀ d ∈ next s c, d ∈ links (handle c s) ∨
        ∀ e ∈ behind (links s) d, e ∉ links (handle c s)) ∧
      Kept fuel (next s c) (handle c s)

/-- What a walk needs of its states and of the handling of a node. -/
structure Walkable (Good : S → Prop) : Prop where
  nodup : ∀ {s}, Good s → (links s).Nodup
  next_inner : ∀ {s a c b}, Good s → links s = a ++ c :: b → next s c = b.head?
  next_outer : ∀ {s c}, Good s → c ∉ links s → next s c = none
  handle_good : ∀ {s} (c), Good s → Good (handle c s)
  handle_sublist : ∀ {s} (c), Good s → (links (handle c s)).Sublist (links s)
  handle_outer : ∀ {s c}, Good s → c ∉ links s → links (handle c s) = links s

variable {next handle links} {Good : S → Prop}

theorem walk_none (fuel : ℕ) (s : S) : walk next handle fuel none s = ([], s) := by
  cases fuel <;> rfl

theorem kept_none (fuel : ℕ) (s : S) : Kept next handle links fuel none s := by
  cases fuel <;> trivial

theorem behind_append {a b : List ℕ} {d : ℕ} (h : d ∉ a) : behind (a ++ d :: b) d = b := by
  have hdrop : (a ++ d :: b).dropWhile (· ≠ d) = d :: b := by
    rw [List.dropWhile_append_of_pos]
    · simp
    · intro x hx
      rw [decide_eq_true_eq]
      rintro rfl
      exact h hx
  rw [behind, hdrop]
  rfl

/-- A sublist of a list without repetition that still has a node of it. -/
theorem exists_split {a b sub : List ℕ} {d : ℕ} (hnodup : (a ++ d :: b).Nodup)
    (hsub : sub.Sublist (a ++ d :: b)) (hd : d ∈ sub) :
    ∃ a' b', sub = a' ++ d :: b' ∧ a'.Sublist a ∧ b'.Sublist b := by
  obtain ⟨a', l, rfl, ha', hl⟩ := List.sublist_append_iff.mp hsub
  have hda : d ∉ a := fun hmem => List.disjoint_of_nodup_append hnodup hmem (by simp)
  have hdb : d ∉ b := (List.nodup_cons.mp (List.nodup_append.mp hnodup).2.1).1
  have hdl : d ∈ l := (List.mem_append.mp hd).resolve_left fun hmem => hda (ha'.subset hmem)
  obtain hb | ⟨b', rfl, hb'⟩ := List.sublist_cons_iff.mp hl
  · exact absurd (hb.subset hdl) hdb
  · exact ⟨a', b', rfl, ha', hb'⟩

/-- A walk links no node. -/
theorem walk_good (hw : Walkable next handle links Good) (fuel : ℕ) (curr : Option ℕ) {s : S}
    (hs : Good s) :
    Good (walk next handle fuel curr s).2 ∧
      (links (walk next handle fuel curr s).2).Sublist (links s) := by
  induction fuel generalizing curr s with
  | zero => exact ⟨hs, .refl _⟩
  | succ fuel ih =>
      cases curr with
      | none => exact ⟨hs, .refl _⟩
      | some c =>
          obtain ⟨hgood, hsub⟩ := ih (next s c) (hw.handle_good c hs)
          exact ⟨hgood, hsub.trans (hw.handle_sublist c hs)⟩

/-- A walk from a linked node misses nothing from there on exactly if every round keeps the
successor. -/
theorem walk_from_iff (hw : Walkable next handle links Good) (fuel : ℕ) {s : S} (hs : Good s)
    {a b : List ℕ} {c : ℕ} (hlinks : links s = a ++ c :: b) (hfuel : b.length < fuel) :
    (∀ e ∈ c :: b, e ∈ links (walk next handle fuel (some c) s).2 →
      e ∈ (walk next handle fuel (some c) s).1) ↔ Kept next handle links fuel (some c) s := by
  induction fuel generalizing s a b c with
  | zero => omega
  | succ fuel ih =>
      have hnext := hw.next_inner hs hlinks
      have hnodup := hw.nodup hs
      have hs' := hw.handle_good c hs
      have hsub := hw.handle_sublist c hs
      rw [Kept, walk, hnext]
      dsimp only
      cases b with
      | nil => simp [walk_none, kept_none]
      | cons d b =>
          have hlinks' : links s = (a ++ [c]) ++ d :: b := by simp [hlinks]
          rw [hlinks'] at hnodup hsub
          have hdb : d ∉ b := (List.nodup_cons.mp (List.nodup_append.mp hnodup).2.1).1
          have hda : d ∉ a ++ [c] := fun hmem => List.disjoint_of_nodup_append hnodup hmem (by simp)
          have hbehind : behind (links s) d = b := hlinks' ▸ behind_append hda
          rw [List.head?_cons]
          simp only [Option.mem_def, Option.some.injEq, forall_eq', hbehind]
          by_cases hd : d ∈ links (handle c s)
          · -- the walk goes on at the successor
            obtain ⟨a', b', hsplit, ha', hb'⟩ := exists_split hnodup hsub hd
            have hlen := hb'.length_le
            simp only [List.length_cons] at hfuel
            rw [← ih hs' hsplit (by omega)]
            have hfinal := (walk_good hw fuel (some d) hs').2
            simp only [hd, true_or, true_and]
            constructor
            · intro hall e he hlinked
              have hec : e ≠ c := by
                rintro rfl
                have hmem : e ∈ d :: b := (hb'.cons_cons d).subset he
                exact List.disjoint_of_nodup_append hnodup (a := e) (by simp) hmem
              have hmem : e ∈ d :: b := (hb'.cons_cons d).subset he
              exact (List.mem_cons.mp (hall e (List.mem_cons_of_mem c hmem) hlinked)).resolve_left hec
            · intro hall e he hlinked
              rcases List.mem_cons.mp he with rfl | he
              · exact List.mem_cons_self
              · have hmem := hfinal.subset hlinked
                rw [hsplit] at hmem
                have hnot : e ∉ a' := fun hea =>
                  List.disjoint_of_nodup_append hnodup (ha'.subset hea) he
                exact List.mem_cons_of_mem c
                  (hall e ((List.mem_append.mp hmem).resolve_left hnot) hlinked)
          · -- the successor has been unlinked, and the walk ends there
            obtain ⟨fuel, rfl⟩ : ∃ n, fuel = n + 1 := by
              cases fuel with
              | zero =>
                  simp only [List.length_cons] at hfuel
                  omega
              | succ n => exact ⟨n, rfl⟩
            have hnone := hw.next_outer hs' hd
            have hsame := hw.handle_outer hs' hd
            have hwalk : walk next handle (fuel + 1) (some d) (handle c s) =
                ([d], handle d (handle c s)) := by
              rw [walk, hnone, walk_none]
            have hkept : Kept next handle links (fuel + 1) (some d) (handle c s) := by
              rw [Kept, hnone]
              exact ⟨by simp, kept_none _ _⟩
            rw [hwalk]
            simp only [hd, false_or, hkept, and_true, hsame]
            constructor
            · intro hall e he hlinked
              have hvisited := hall e (by simp [he]) hlinked
              rcases List.mem_cons.mp hvisited with rfl | hvisited
              · exact List.disjoint_of_nodup_append hnodup (a := e) (by simp) (by simp [he])
              · obtain rfl := List.mem_singleton.mp hvisited
                exact hdb he
            · intro hall e he hlinked
              rcases List.mem_cons.mp he with rfl | he
              · simp
              · rcases List.mem_cons.mp he with rfl | he
                · simp
                · exact absurd hlinked (hall e he)

/-- **When a walk misses nothing**: every node that was linked at the start of a walk over the
whole list and is linked at its end has been visited, exactly if every round leaves the saved
successor linked or nothing of what was behind it. -/
theorem walk_complete_iff (hw : Walkable next handle links Good) {s : S} (hs : Good s) {fuel : ℕ}
    (hfuel : (links s).length ≤ fuel) :
    (∀ e ∈ links s, e ∈ links (walk next handle fuel (links s).head? s).2 →
      e ∈ (walk next handle fuel (links s).head? s).1) ↔
      Kept next handle links fuel (links s).head? s := by
  cases hlinks : links s with
  | nil => simp [kept_none]
  | cons c b =>
      rw [hlinks, List.length_cons] at hfuel
      exact walk_from_iff hw fuel hs (a := []) hlinks (by omega)

end Walk

end Dll
