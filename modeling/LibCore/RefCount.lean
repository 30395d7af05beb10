import Mathlib.Algebra.BigOperators.Group.Finset.Basic
import Mathlib.Data.List.Count
import Mathlib.Tactic

/-!
# Reference Counts

A heap of objects that own references to one another. Giving up a reference lowers a count, and the last
reference to an object takes the object with it, which gives up the references it owns in turn. Nothing here
names a program.

A heap is sound when no count is below the number of references that are held: those the objects own, those
of the surroundings (`kept`) and those still to be given up (`work`). Then the release of a list of references
meets no object that is gone, and it ends, because every step gives up one reference.

## Main definitions

* `Cell`, `Heap`: an object with its count and the references it owns.
* `release`: giving up a list of references.
* `Sound`: no count is below the references held.

## Main results

* `release_spec`: which counts a release leaves, and that the heap stays sound.
-/

namespace RefCount

/-- An object: its count, and the references it gives up when it goes. -/
structure Cell (ι : Type) where
  count : ℕ
  owned : List ι

/-- The objects by address. -/
abbrev Heap (ι : Type) := ι → Option (Cell ι)

variable {ι : Type} [DecidableEq ι]

/-- The count of a live object; an object that is gone has none. -/
def count (h : Heap ι) (x : ι) : ℕ := (h x).elim 0 Cell.count

/-- The references an object owns. -/
def owned (h : Heap ι) (x : ι) : List ι := (h x).elim [] Cell.owned

/-- The heap with another object, or none, at an address. -/
def put (h : Heap ι) (x : ι) (c : Option (Cell ι)) : Heap ι := fun y => if y = x then c else h y

@[simp] theorem put_self (h : Heap ι) (x : ι) (c : Option (Cell ι)) : put h x c x = c := if_pos rfl

theorem put_of_ne (h : Heap ι) {x y : ι} (hy : y ≠ x) (c : Option (Cell ι)) : put h x c y = h y :=
  if_neg hy

/-- Giving up the references of a list, one after the other. The last reference to an object is followed by
those the object owned. `none` is the use of an object that is gone, or too little fuel. -/
def release : ℕ → Heap ι → List ι → Option (Heap ι)
  | _, h, [] => some h
  | 0, _, _ :: _ => none
  | fuel + 1, h, x :: work =>
      match h x with
      | none => none
      | some c =>
          if c.count = 1 then release fuel (put h x none) (c.owned ++ work)
          else release fuel (put h x (some { c with count := c.count - 1 })) work

/-- The references to `x` that the objects of `s` own. -/
def refs (s : Finset ι) (h : Heap ι) (x : ι) : ℕ := ∑ y ∈ s, (owned h y).count x

/-- No count is below the references held. All objects are in `s`. -/
structure Sound (s : Finset ι) (h : Heap ι) (kept : ι → ℕ) (work : List ι) : Prop where
  mem_of_isSome : ∀ x, (h x).isSome → x ∈ s
  pos : ∀ x, (h x).isSome → 0 < count h x
  covered : ∀ x, refs s h x + kept x + work.count x ≤ count h x

variable {s : Finset ι} {h : Heap ι} {kept : ι → ℕ} {x : ι} {work : List ι}

/-- A reference that is held leads to an object. -/
theorem Sound.exists_cell (hs : Sound s h kept (x :: work)) : ∃ c, h x = some c ∧ 0 < c.count := by
  have hcount := hs.covered x
  rw [List.count_cons_self] at hcount
  cases hx : h x with
  | none =>
      rw [count, hx, Option.elim_none] at hcount
      omega
  | some c =>
      have hpos := hs.pos x (by rw [hx]; rfl)
      rw [count, hx] at hpos
      exact ⟨c, rfl, hpos⟩

/-! ### What changes in one object -/

theorem count_put (h : Heap ι) (x : ι) (c : Option (Cell ι)) (y : ι) :
    count (put h x c) y = if y = x then c.elim 0 Cell.count else count h y := by
  unfold count put
  split_ifs <;> rfl

theorem owned_put (h : Heap ι) (x : ι) (c : Option (Cell ι)) (y : ι) :
    owned (put h x c) y = if y = x then c.elim [] Cell.owned else owned h y := by
  unfold owned put
  split_ifs <;> rfl

/-- Another count is no matter for the references. -/
theorem owned_put_count {c : Cell ι} (hx : h x = some c) (n : ℕ) :
    owned (put h x (some { c with count := n })) = owned h := by
  funext y
  rw [owned_put]
  split_ifs with hy
  · rw [hy, owned, hx]
    rfl
  · rfl

theorem refs_put_none (hmem : x ∈ s) (y : ι) :
    refs s (put h x none) y + (owned h x).count y = refs s h y := by
  rw [refs, refs, ← Finset.sum_erase_add _ _ hmem, ← Finset.sum_erase_add _ (fun z => (owned h z).count y) hmem,
    owned_put, if_pos rfl, Option.elim_none, List.count_nil, Nat.add_zero]
  congr 1
  refine Finset.sum_congr rfl fun z hz => ?_
  rw [owned_put, if_neg (Finset.ne_of_mem_erase hz)]

theorem isSome_put_none {y : ι} (hy : (put h x none y).isSome) : y ≠ x ∧ (h y).isSome := by
  by_cases hyx : y = x
  · rw [hyx, put_self] at hy
    exact absurd hy (by simp)
  · rw [put_of_ne h hyx] at hy
    exact ⟨hyx, hy⟩

/-! ### One step -/

/-- The last reference to an object. -/
theorem Sound.destroy (hs : Sound s h kept (x :: work)) {c : Cell ι} (hx : h x = some c) (hc : c.count = 1) :
    Sound s (put h x none) kept (c.owned ++ work) := by
  have hmem : x ∈ s := hs.mem_of_isSome x (by rw [hx]; rfl)
  have howned : owned h x = c.owned := by
    rw [owned, hx]
    rfl
  refine ⟨fun y hy => hs.mem_of_isSome y (isSome_put_none hy).2, fun y hy => ?_, fun y => ?_⟩
  · obtain ⟨hne, hsome⟩ := isSome_put_none hy
    rw [count_put, if_neg hne]
    exact hs.pos y hsome
  · have hrefs := @refs_put_none ι _ s h x hmem y
    have hcov := hs.covered y
    rw [howned] at hrefs
    rw [List.count_append, count_put]
    by_cases hy : y = x
    · have hone : count h x = 1 := by rw [count, hx, Option.elim_some, hc]
      rw [hy, List.count_cons_self, hone] at hcov
      rw [if_pos hy, Option.elim_none]
      subst hy
      omega
    · rw [List.count_cons_of_ne (Ne.symm hy)] at hcov
      rw [if_neg hy]
      omega

/-- A reference of several. -/
theorem Sound.decrement (hs : Sound s h kept (x :: work)) {c : Cell ι} (hx : h x = some c) (hc : c.count ≠ 1) :
    Sound s (put h x (some { c with count := c.count - 1 })) kept work := by
  have hpos := hs.pos x (by rw [hx]; rfl)
  have hcount : count h x = c.count := by
    rw [count, hx]
    rfl
  refine ⟨fun y hy => ?_, fun y hy => ?_, fun y => ?_⟩
  · by_cases hyx : y = x
    · exact hs.mem_of_isSome y (by rw [hyx, hx]; rfl)
    · exact hs.mem_of_isSome y (by rwa [put_of_ne h hyx] at hy)
  · rw [count_put]
    split_ifs with hyx
    · rw [Option.elim_some]
      show 0 < c.count - 1
      omega
    · exact hs.pos y (by rwa [put_of_ne h hyx] at hy)
  · have hcov := hs.covered y
    rw [refs, owned_put_count hx, ← refs, count_put]
    split_ifs with hyx
    · rw [hyx, List.count_cons_self, hcount] at hcov
      rw [hyx, Option.elim_some]
      show _ ≤ c.count - 1
      omega
    · rw [List.count_cons_of_ne (Ne.symm hyx)] at hcov
      exact hcov

/-! ### The whole release -/

/-- All counts together. -/
def total (s : Finset ι) (h : Heap ι) : ℕ := ∑ x ∈ s, count h x

theorem total_put (hmem : x ∈ s) (c : Option (Cell ι)) :
    total s (put h x c) + count h x = total s h + c.elim 0 Cell.count := by
  have herase : ∑ y ∈ s.erase x, count (put h x c) y = ∑ y ∈ s.erase x, count h y := by
    refine Finset.sum_congr rfl fun y hy => ?_
    rw [count_put, if_neg (Finset.ne_of_mem_erase hy)]
  rw [total, total, ← Finset.sum_erase_add _ _ hmem, ← Finset.sum_erase_add _ (count h) hmem, herase, count_put,
    if_pos rfl]
  omega

/-- What the release of `work` has done to the objects: those of `gone` are gone, the others own what they
owned, and every count has gone down by the references that were given up, those of `work` and those that the
objects that are gone have owned. -/
structure Released (h : Heap ι) (work : List ι) (gone : Finset ι) (h' : Heap ι) : Prop where
  of_mem : ∀ x ∈ gone, (h x).isSome ∧ h' x = none
  of_notMem : ∀ x ∉ gone, owned h' x = owned h x ∧ (h' x).isSome = (h x).isSome
  count_add : ∀ x, count h' x + work.count x + ∑ d ∈ gone, (owned h d).count x = count h x

theorem Released.nil (h : Heap ι) : Released h [] ∅ h where
  of_mem x hx := absurd hx (Finset.notMem_empty x)
  of_notMem _ _ := ⟨rfl, rfl⟩
  count_add x := by simp

/-- The object goes first, and what it owned is released with the rest. -/
theorem Released.destroy {c : Cell ι} (hx : h x = some c) (hc : c.count = 1) {gone : Finset ι} {h' : Heap ι}
    (hr : Released (put h x none) (c.owned ++ work) gone h') : Released h (x :: work) (insert x gone) h' := by
  have hnot : x ∉ gone := by
    intro hmem
    have hsome := (hr.of_mem x hmem).1
    rw [put_self] at hsome
    exact absurd hsome (by simp)
  have hstill : h' x = none := by
    have hsome := (hr.of_notMem x hnot).2
    rw [put_self] at hsome
    simpa using hsome
  have hothers : ∀ y, ∑ d ∈ gone, (owned (put h x none) d).count y = ∑ d ∈ gone, (owned h d).count y := by
    refine fun y => Finset.sum_congr rfl fun d hd => ?_
    rw [owned_put, if_neg (ne_of_mem_of_not_mem hd hnot)]
  refine ⟨fun y hy => ?_, fun y hy => ?_, fun y => ?_⟩
  · rcases Finset.mem_insert.mp hy with rfl | hy
    · exact ⟨by rw [hx]; rfl, hstill⟩
    · exact ⟨(isSome_put_none (hr.of_mem y hy).1).2, (hr.of_mem y hy).2⟩
  · obtain ⟨hne, hgone⟩ := not_or.mp (fun hor => hy (Finset.mem_insert.mpr hor))
    have hstays := hr.of_notMem y hgone
    rwa [owned_put, if_neg hne, put_of_ne h hne] at hstays
  · have hcount := hr.count_add y
    rw [hothers, List.count_append, count_put] at hcount
    rw [Finset.sum_insert hnot, owned, hx, Option.elim_some]
    by_cases hyx : y = x
    · have hone : count h x = 1 := by rw [count, hx, Option.elim_some, hc]
      rw [if_pos hyx, Option.elim_none] at hcount
      subst hyx
      rw [List.count_cons_self, hone]
      omega
    · rw [if_neg hyx] at hcount
      rw [List.count_cons_of_ne (Ne.symm hyx)]
      omega

theorem Released.decrement {c : Cell ι} (hx : h x = some c) (hpos : 0 < c.count) {gone : Finset ι} {h' : Heap ι}
    (hr : Released (put h x (some { c with count := c.count - 1 })) work gone h') :
    Released h (x :: work) gone h' := by
  have hsome : ∀ y, (put h x (some { c with count := c.count - 1 }) y).isSome = (h y).isSome := by
    intro y
    by_cases hyx : y = x
    · rw [hyx, put_self, hx]
      rfl
    · rw [put_of_ne h hyx]
  refine ⟨fun y hy => ?_, fun y hy => ?_, fun y => ?_⟩
  · have hmem := hr.of_mem y hy
    rwa [hsome] at hmem
  · have hstays := hr.of_notMem y hy
    rwa [owned_put_count hx, hsome] at hstays
  · have hcount := hr.count_add y
    rw [owned_put_count hx, count_put] at hcount
    by_cases hyx : y = x
    · have hc : count h x = c.count := by
        rw [count, hx]
        rfl
      rw [if_pos hyx, Option.elim_some] at hcount
      rw [hyx] at hcount ⊢
      rw [List.count_cons_self, hc]
      dsimp only at hcount
      omega
    · rw [if_neg hyx] at hcount
      rwa [List.count_cons_of_ne (Ne.symm hyx)]

/-- **The release of references** that are held ends, and leaves a sound heap. -/
theorem release_spec {fuel : ℕ} (hs : Sound s h kept work) (hfuel : total s h ≤ fuel) :
    ∃ h' gone, release fuel h work = some h' ∧ Sound s h' kept [] ∧ Released h work gone h' := by
  induction fuel generalizing h work with
  | zero =>
      cases work with
      | nil => exact ⟨h, ∅, rfl, hs, .nil h⟩
      | cons x work =>
          obtain ⟨c, hx, hpos⟩ := hs.exists_cell
          have hmem : x ∈ s := hs.mem_of_isSome x (by rw [hx]; rfl)
          have htotal := @total_put ι _ s h x hmem none
          rw [count, hx, Option.elim_some, Option.elim_none] at htotal
          omega
  | succ fuel ih =>
      cases work with
      | nil => exact ⟨h, ∅, rfl, hs, .nil h⟩
      | cons x work =>
          obtain ⟨c, hx, hpos⟩ := hs.exists_cell
          have hmem : x ∈ s := hs.mem_of_isSome x (by rw [hx]; rfl)
          have hcount : count h x = c.count := by
            rw [count, hx]
            rfl
          rw [release, hx]
          by_cases hc : c.count = 1
          · have htotal := @total_put ι _ s h x hmem none
            rw [hcount, Option.elim_none] at htotal
            obtain ⟨h', gone, hrun, hsound, hr⟩ := ih (hs.destroy hx hc) (by omega)
            exact ⟨h', insert x gone, by rw [← hrun]; exact if_pos hc, hsound, hr.destroy hx hc⟩
          · have htotal := @total_put ι _ s h x hmem (some { c with count := c.count - 1 })
            rw [hcount, Option.elim_some] at htotal
            dsimp only at htotal
            obtain ⟨h', gone, hrun, hsound, hr⟩ := ih (hs.decrement hx hc) (by omega)
            exact ⟨h', gone, by rw [← hrun]; exact if_neg hc, hsound, hr.decrement hx hpos⟩

/-- One reference given up, with what is known of the objects that go: none of them goes when there is
another reference, and the last reference takes its object with it. -/
theorem release_one {fuel : ℕ} (hs : Sound s h kept [x]) (hfuel : total s h ≤ fuel) :
    ∃ h' gone, release fuel h [x] = some h' ∧ Sound s h' kept [] ∧ Released h [x] gone h' ∧
      (1 < count h x → gone = ∅) ∧ (count h x = 1 → x ∈ gone) := by
  obtain ⟨h', gone, hrun, hsound, hr⟩ := release_spec hs hfuel
  obtain ⟨c, hx, hpos⟩ := hs.exists_cell
  have hcount : count h x = c.count := by
    rw [count, hx]
    rfl
  by_cases hc : c.count = 1
  · refine ⟨h', gone, hrun, hsound, hr, fun hlt => absurd hlt (by omega), fun _ => ?_⟩
    by_contra hnot
    have hkept := hr.count_add x
    have hgone : (h' x).isSome = (h x).isSome := (hr.of_notMem x hnot).2
    have hlive := hsound.pos x (by rw [hgone, hx]; rfl)
    rw [List.count_singleton_self] at hkept
    omega
  · refine ⟨h', ∅, hrun, hsound, ?_, fun _ => rfl, fun heq => absurd heq (by omega)⟩
    cases fuel with
    | zero =>
        have hmem : x ∈ s := hs.mem_of_isSome x (by rw [hx]; rfl)
        have htotal := @total_put ι _ s h x hmem none
        rw [Option.elim_none] at htotal
        omega
    | succ fuel =>
        have hdec : h' = put h x (some { c with count := c.count - 1 }) := by
          rw [release, hx] at hrun
          dsimp only at hrun
          rw [if_neg hc, release] at hrun
          exact (Option.some.inj hrun).symm
        rw [hdec]
        exact (Released.nil _).decrement hx hpos

end RefCount
