import Mathlib.Data.Finmap
import Mathlib.Tactic

/-!
# Association Chains

A bucket of a chained hash table is a singly linked list of keyed entries, and every
operation on it walks to the first entry whose key satisfies a test: `find?` reads its
value, `replace?` overwrites it, `unlink?` takes the entry out. The test is a parameter,
so the same lemmas serve a table that compares whole keys and one that compares less.

`Buckets` is the table itself, a list of chains. The second half of the module says what
exchanging one bucket does to the flat list of all entries, up to order.

## Main results

* `replace?_eq_some`, `unlink?_eq_some`: both operations split the chain at the first
  match.
* `find?_replace?_of_disjoint`, `find?_unlink?_of_disjoint`: a lookup with a disjoint
  test does not see them.
* `flatten_set_perm`: exchanging one bucket exchanges its entries in the whole table.
* `Lists.cons`, `Lists.replace`, `Lists.unlink`: what a change of one entry does to the finite
  map that a list of entries stands for.
-/

namespace Chain

variable {K V : Type}

/-- The value of the first entry whose key passes the test. -/
def find? (p : K → Bool) : List (K × V) → Option V
  | [] => none
  | (k, v) :: c => if p k then some v else find? p c

/-- Overwrite the value of the first entry whose key passes the test; the entry keeps
its key. -/
def replace? (p : K → Bool) (v : V) : List (K × V) → Option (List (K × V))
  | [] => none
  | (k, w) :: c => if p k then some ((k, v) :: c) else (replace? p v c).map ((k, w) :: ·)

/-- Take out the first entry whose key passes the test. -/
def unlink? (p : K → Bool) : List (K × V) → Option (V × List (K × V))
  | [] => none
  | (k, w) :: c =>
      if p k then some (w, c) else (unlink? p c).map fun r => (r.1, (k, w) :: r.2)

/-! ### Lookup -/

/-- A lookup fails exactly on a chain without a match. -/
theorem find?_eq_none_iff {p : K → Bool} {c : List (K × V)} :
    find? p c = none ↔ ∀ e ∈ c, p e.1 = false := by
  induction c with
  | nil => simp [find?]
  | cons e c ih =>
      obtain ⟨k, v⟩ := e
      by_cases hk : p k <;> simp [find?, hk, ih]

/-- A lookup walks past a prefix without a match. -/
theorem find?_append_of_none {p : K → Bool} {c₁ c₂ : List (K × V)}
    (h : ∀ e ∈ c₁, p e.1 = false) : find? p (c₁ ++ c₂) = find? p c₂ := by
  induction c₁ with
  | nil => rfl
  | cons e c ih =>
      obtain ⟨k, v⟩ := e
      have hk : p k = false := h (k, v) (by simp)
      simp only [List.cons_append, find?, hk]
      exact ih fun e he => h e (by simp [he])

/-- Replacing the middle entry of a chain is invisible to a test that entry fails. -/
theorem find?_middle_congr {p : K → Bool} {c₁ c₄ : List (K × V)} (c₂ c₃ : List (K × V))
    (h : find? p c₂ = none) (h' : find? p c₃ = none) :
    find? p (c₁ ++ (c₂ ++ c₄)) = find? p (c₁ ++ (c₃ ++ c₄)) := by
  induction c₁ with
  | nil =>
      rw [List.nil_append, List.nil_append, find?_append_of_none (find?_eq_none_iff.mp h),
        find?_append_of_none (find?_eq_none_iff.mp h')]
  | cons e c ih =>
      obtain ⟨k, v⟩ := e
      simp only [List.cons_append, find?, ih]

/-- Where keys passing the test are pairwise equal to one key held once, the lookup
returns exactly the entry of that key. -/
theorem find?_eq_some_iff_mem [DecidableEq K] {k : K} {c : List (K × V)} {v : V}
    {p : K → Bool} (hp : ∀ e ∈ c, (p e.1 = true ↔ e.1 = k)) (hc : (c.map Prod.fst).Nodup) :
    find? p c = some v ↔ (k, v) ∈ c := by
  induction c with
  | nil => simp [find?]
  | cons e c ih =>
      obtain ⟨k', w⟩ := e
      have hk' : p k' = true ↔ k' = k := hp (k', w) (by simp)
      rw [List.map_cons, List.nodup_cons] at hc
      have ih := ih (fun e he => hp e (by simp [he])) hc.2
      by_cases hm : k' = k
      · subst hm
        have hnot : ∀ w', (k', w') ∉ c := fun w' hw =>
          hc.1 (List.mem_map.mpr ⟨(k', w'), hw, rfl⟩)
        simp [find?, hk'.mpr rfl, hnot, eq_comm]
      · have hpf : p k' = false := by
          rw [Bool.eq_false_iff]
          exact fun hpt => hm (hk'.mp hpt)
        simp [find?, hpf, ih, Ne.symm hm]

/-- A lookup sees no more of a test than its answers on the chain. -/
theorem find?_congr {p q : K → Bool} {c : List (K × V)} (h : ∀ e ∈ c, p e.1 = q e.1) :
    find? p c = find? q c := by
  induction c with
  | nil => rfl
  | cons e c ih =>
      obtain ⟨k, v⟩ := e
      have hk : p k = q k := h (k, v) (by simp)
      simp only [find?, hk, ih fun e he => h e (by simp [he])]

/-- A lookup in a chain whose keys are seen through a function. -/
theorem find?_map {Q : Type} (g : K → Q) (p : Q → Bool) (c : List (K × V)) :
    find? p (c.map fun e => (g e.1, e.2)) = find? (fun k => p (g k)) c := by
  induction c with
  | nil => rfl
  | cons e c ih =>
      obtain ⟨k, v⟩ := e
      simp only [List.map_cons, find?, ih]

/-! ### Replacement and unlinking -/

/-- Replacement fails exactly on a chain without a match. -/
theorem replace?_eq_none_iff {p : K → Bool} {v : V} {c : List (K × V)} :
    replace? p v c = none ↔ ∀ e ∈ c, p e.1 = false := by
  induction c with
  | nil => simp [replace?]
  | cons e c ih =>
      obtain ⟨k, w⟩ := e
      by_cases hk : p k <;> simp [replace?, hk, ih]

/-- Replacement splits the chain at the first match. -/
theorem replace?_eq_some {p : K → Bool} {v : V} {c c' : List (K × V)}
    (h : replace? p v c = some c') :
    ∃ c₁ k w c₂, c = c₁ ++ (k, w) :: c₂ ∧ c' = c₁ ++ (k, v) :: c₂ ∧ p k = true ∧
      ∀ e ∈ c₁, p e.1 = false := by
  induction c generalizing c' with
  | nil => simp [replace?] at h
  | cons e c ih =>
      obtain ⟨k, w⟩ := e
      by_cases hk : p k
      · simp only [replace?, hk, if_true, Option.some.injEq] at h
        exact ⟨[], k, w, c, rfl, h.symm, hk, by simp⟩
      · simp only [replace?, hk, if_false, Option.map_eq_some_iff, Bool.false_eq_true] at h
        obtain ⟨d, hd, rfl⟩ := h
        obtain ⟨c₁, k', w', c₂, rfl, rfl, hp, hc₁⟩ := ih hd
        refine ⟨(k, w) :: c₁, k', w', c₂, rfl, rfl, hp, ?_⟩
        simpa [hk] using hc₁

/-- Unlinking fails exactly on a chain without a match. -/
theorem unlink?_eq_none_iff {p : K → Bool} {c : List (K × V)} :
    unlink? p c = none ↔ ∀ e ∈ c, p e.1 = false := by
  induction c with
  | nil => simp [unlink?]
  | cons e c ih =>
      obtain ⟨k, w⟩ := e
      by_cases hk : p k <;> simp [unlink?, hk, ih]

/-- Unlinking splits the chain at the first match. -/
theorem unlink?_eq_some {p : K → Bool} {v : V} {c c' : List (K × V)}
    (h : unlink? p c = some (v, c')) :
    ∃ c₁ k c₂, c = c₁ ++ (k, v) :: c₂ ∧ c' = c₁ ++ c₂ ∧ p k = true ∧
      ∀ e ∈ c₁, p e.1 = false := by
  induction c generalizing c' with
  | nil => simp [unlink?] at h
  | cons e c ih =>
      obtain ⟨k, w⟩ := e
      by_cases hk : p k
      · simp only [unlink?, hk, if_true, Option.some.injEq, Prod.mk.injEq] at h
        obtain ⟨rfl, rfl⟩ := h
        exact ⟨[], k, c, rfl, rfl, hk, by simp⟩
      · simp only [unlink?, hk, if_false, Option.map_eq_some_iff, Bool.false_eq_true,
          Prod.mk.injEq] at h
        obtain ⟨⟨d, d'⟩, hd, rfl, rfl⟩ := h
        obtain ⟨c₁, k', c₂, rfl, rfl, hp, hc₁⟩ := ih hd
        refine ⟨(k, w) :: c₁, k', c₂, rfl, rfl, hp, ?_⟩
        simpa [hk] using hc₁

/-- Replacement under one test is invisible to a test that excludes it. -/
theorem find?_replace?_of_disjoint {p q : K → Bool} {v : V} {c c' : List (K × V)}
    (hpq : ∀ k, p k = true → q k = false) (h : replace? p v c = some c') :
    find? q c' = find? q c := by
  obtain ⟨c₁, k, w, c₂, rfl, rfl, hk, -⟩ := replace?_eq_some h
  have hq : q k = false := hpq k hk
  exact find?_middle_congr [(k, v)] [(k, w)] (by simp [find?, hq])
    (by simp [find?, hq])

/-- Unlinking under one test is invisible to a test that excludes it. -/
theorem find?_unlink?_of_disjoint {p q : K → Bool} {v : V} {c c' : List (K × V)}
    (hpq : ∀ k, p k = true → q k = false) (h : unlink? p c = some (v, c')) :
    find? q c' = find? q c := by
  obtain ⟨c₁, k, c₂, rfl, rfl, hk, -⟩ := unlink?_eq_some h
  have hq : q k = false := hpq k hk
  exact find?_middle_congr [] [(k, v)] (by simp [find?])
    (by simp [find?, hq])

/-- A lookup and an unlinking under the same test see the same entry. -/
theorem unlink?_map_fst {p : K → Bool} {c : List (K × V)} :
    (unlink? p c).map Prod.fst = find? p c := by
  induction c with
  | nil => rfl
  | cons e c ih =>
      obtain ⟨k, w⟩ := e
      by_cases hk : p k
      · simp [unlink?, find?, hk]
      · simp [unlink?, find?, hk, ← ih, Function.comp_def]

/-! ### A table of chains -/

variable {α : Type}

/-- The table's entries are those of one bucket and those of the others. -/
theorem flatten_perm_getElem {l : List (List α)} {i : ℕ} (h : i < l.length) :
    l.flatten.Perm (l[i] ++ (l.eraseIdx i).flatten) := by
  have hp : (l[i] :: l.eraseIdx i).Perm l := List.getElem_cons_eraseIdx_perm h
  simpa using hp.flatten.symm

/-- Exchanging one bucket exchanges its entries in the whole table. -/
theorem flatten_set_perm {l : List (List α)} {i : ℕ} (h : i < l.length) (c : List α) :
    (l.set i c).flatten.Perm (c ++ (l.eraseIdx i).flatten) := by
  have hi : i < (l.set i c).length := by simpa using h
  simpa [List.eraseIdx_set_eq] using flatten_perm_getElem hi

/-- Pushing to one bucket adds the entry to the whole table. -/
theorem flatten_modify_cons_perm {l : List (List α)} {i : ℕ} (h : i < l.length) (a : α) :
    (l.modify i (a :: ·)).flatten.Perm (a :: l.flatten) := by
  have hset : l.modify i (a :: ·) = l.set i (a :: l[i]) := by
    rw [List.modify_eq_set_get _ h]
    rfl
  rw [hset]
  exact (flatten_set_perm h _).trans ((flatten_perm_getElem h).symm.cons a)

/-! ### Entries as a finite map -/

section Lists

variable {Q : Type} [DecidableEq Q]

/-- A list of entries, each key once, stands for a finite map. -/
structure Lists (es : List (Q × V)) (f : Finmap fun _ : Q => V) : Prop where
  nodup : (es.map Prod.fst).Nodup
  mem_iff : ∀ k v, (k, v) ∈ es ↔ f.lookup k = some v

namespace Lists

variable {es rest : List (Q × V)} {f : Finmap fun _ : Q => V} {k : Q} {v w : V}

theorem nil : Lists ([] : List (Q × V)) ∅ := ⟨by simp, by simp⟩

theorem perm (h : Lists es f) {es' : List (Q × V)} (hp : es'.Perm es) : Lists es' f where
  nodup := (hp.map Prod.fst).nodup_iff.mpr h.nodup
  mem_iff k v := by rw [hp.mem_iff, h.mem_iff]

/-- A key that is not listed is not in the map. -/
theorem lookup_eq_none (h : Lists es f) (hk : k ∉ es.map Prod.fst) : f.lookup k = none := by
  rw [Option.eq_none_iff_forall_not_mem]
  intro v hv
  exact hk (List.mem_map.mpr ⟨(k, v), (h.mem_iff k v).mpr hv, rfl⟩)

/-- A new entry inserts. -/
theorem cons (h : Lists es f) (hk : k ∉ es.map Prod.fst) (v : V) :
    Lists ((k, v) :: es) (f.insert k v) where
  nodup := by
    rw [List.map_cons, List.nodup_cons]
    exact ⟨hk, h.nodup⟩
  mem_iff k' v' := by
    rw [List.mem_cons]
    by_cases hkk : k' = k
    · subst hkk
      have hnot : (k', v') ∉ es := fun hm => hk (List.mem_map.mpr ⟨(k', v'), hm, rfl⟩)
      simp [hnot, eq_comm]
    · rw [Finmap.lookup_insert_of_ne _ hkk, ← h.mem_iff]
      simp [hkk]

/-- Taking out an entry erases its key. -/
theorem unlink (h : Lists ((k, w) :: rest) f) : Lists rest (f.erase k) where
  nodup := by
    have hnodup := h.nodup
    rw [List.map_cons, List.nodup_cons] at hnodup
    exact hnodup.2
  mem_iff k' v' := by
    have hnodup := h.nodup
    rw [List.map_cons, List.nodup_cons] at hnodup
    by_cases hkk : k' = k
    · subst hkk
      rw [Finmap.lookup_erase]
      simpa using fun hmem => hnodup.1 (List.mem_map.mpr ⟨(k', v'), hmem, rfl⟩)
    · rw [Finmap.lookup_erase_ne hkk, ← h.mem_iff, List.mem_cons]
      simp [hkk]

/-- Overwriting an entry inserts. -/
theorem replace (h : Lists ((k, w) :: rest) f) (v : V) :
    Lists ((k, v) :: rest) (f.insert k v) where
  nodup := h.nodup
  mem_iff k' v' := by
    have hnodup := h.nodup
    rw [List.map_cons, List.nodup_cons] at hnodup
    rw [List.mem_cons]
    by_cases hkk : k' = k
    · subst hkk
      have hnot : (k', v') ∉ rest := fun hm => hnodup.1 (List.mem_map.mpr ⟨(k', v'), hm, rfl⟩)
      simp [hnot, eq_comm]
    · rw [Finmap.lookup_insert_of_ne _ hkk, ← h.mem_iff, List.mem_cons]
      simp [hkk]

/-- Erasing a key that is not there changes nothing. -/
theorem erase_of_notMem (h : Lists es f) (hk : k ∉ es.map Prod.fst) : f.erase k = f := by
  refine Finmap.ext_lookup fun k' => ?_
  by_cases hkk : k' = k
  · rw [hkk, Finmap.lookup_erase, h.lookup_eq_none hk]
  · rw [Finmap.lookup_erase_ne hkk]

/-- The entries of the map, in the order of the list. -/
theorem entries (h : Lists es f) :
    ((es.map fun e => ⟨e.1, e.2⟩ : List ((_ : Q) × V)) : Multiset ((_ : Q) × V)) = f.entries := by
  have hinj : Function.Injective (fun e : Q × V => (⟨e.1, e.2⟩ : (_ : Q) × V)) := by
    rintro ⟨k, v⟩ ⟨k', v'⟩ heq
    simpa using heq
  have hnd := (List.Nodup.of_map Prod.fst h.nodup).map hinj
  refine (Multiset.Nodup.ext (Multiset.coe_nodup.mpr hnd) f.nodup_entries).mpr ?_
  rintro ⟨k, v⟩
  rw [← Finmap.lookup_eq_some_iff, ← h.mem_iff, Multiset.mem_coe]
  exact List.mem_map_of_injective hinj (a := (k, v))

/-- The keys of the map, in the order of the list. -/
theorem keys (h : Lists es f) : ((es.map Prod.fst : List Q) : Multiset Q) = f.keys.val := by
  change ((es.map Prod.fst : List Q) : Multiset Q) = f.entries.keys
  rw [← h.entries, Multiset.coe_keys, List.keys, List.map_map]
  rfl

/-- The values of the map, in the order of the list. -/
theorem values (h : Lists es f) :
    ((es.map Prod.snd : List V) : Multiset V) = f.entries.map Sigma.snd := by
  rw [← h.entries, Multiset.map_coe, List.map_map]
  rfl

theorem card_keys (h : Lists es f) : f.keys.card = es.length := by
  rw [Finset.card, ← h.keys, Multiset.coe_card, List.length_map]

end Lists

end Lists

end Chain
