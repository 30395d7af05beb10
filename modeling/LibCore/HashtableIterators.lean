import LibCore.HashtableRefine

/-!
# The Object-Keyed `Hashtable`: Iterators Among Operations

Iterators that are open while the table changes. `it_next` compares the `modCount` of the table with
the one the iterator has kept and gives up when they differ; `it_hasNext` looks at the entry only. So
an iterator makes progress as long as no operation moves `modCount` while the iterator has an entry
ahead, and once one does, `hasNext` stays `true` and `next` stays `false`.

## Main definitions

* `Session`, `Call`: a table with its iterators, and the calls on them.
* `Progress`: after `hasNext` comes `next`, and the loop over the iterator ends.
* `Op.Quiet`: the operations that leave `modCount` alone.

## Main results

* `exec_spec`: what an operation does to the iterators.
* `iterators_progress_iff`: iterators make progress exactly if they are not disturbed.
-/

namespace Hashtable

variable {K V : Type} {cls : KeyClass K} {t t' : Hashtable K V}

/-! ### What operations do to `modCount` -/

/-- The chains are as long as before, and so is `modCount`. -/
structure Kept (t t' : Hashtable K V) : Prop where
  capacity : t'.capacity = t.capacity
  lengths : t'.table.map List.length = t.table.map List.length
  modCount : t'.modCount = t.modCount

theorem Kept.refl (t : Hashtable K V) : Kept t t := ⟨rfl, rfl, rfl⟩

theorem Sized.of_kept (h : Sized t) (hkept : Kept t t') : Sized t' := by
  have hlength := congrArg List.length hkept.lengths
  rw [List.length_map, List.length_map] at hlength
  exact ⟨hkept.capacity ▸ h.capacity_le, by rw [hkept.capacity, h.length, hlength]⟩

/-- One bucket has been exchanged. -/
theorem Sized.exchange (h : Sized t) {idx : ℕ} {c : List (HashtableEntry K V)} {count : ℤ}
    {modCount : UInt64} :
    Sized { t with table := t.table.set idx c, count := count, modCount := modCount } :=
  ⟨h.capacity_le, by rw [List.length_set]; exact h.length⟩

/-- The operations that leave `modCount` alone: a `put` of a key that is there, if the table does
not grow, and a `remove` of one that is not. -/
def Op.Quiet (cls : KeyClass K) (t : Hashtable K V) : Op K V → Prop
  | .put (some key) (some _) => t.count < t.threshold ∧ t.containsKey cls (some key) = some true
  | .remove (some key) => t.containsKey cls (some key) ≠ some true
  | .clear => False
  | _ => True

instance (cls : KeyClass K) (t : Hashtable K V) : DecidablePred (Op.Quiet cls t)
  | .put (some key) (some _) => inferInstanceAs (Decidable (_ ∧ t.containsKey cls (some key) = _))
  | .remove (some key) => inferInstanceAs (Decidable (t.containsKey cls (some key) ≠ _))
  | .clear => inferInstanceAs (Decidable False)
  | .put none _ | .put (some _) none | .remove none | .get _ | .containsKey _ | .keys | .values
  | .size | .isEmpty | .iterate _ => inferInstanceAs (Decidable True)

/-- A `put` that makes the table grow keeps its capacity an `int`. -/
def Op.Within (t : Hashtable K V) : Op K V → Prop
  | .put (some _) (some _) => t.threshold ≤ t.count → 2 * t.capacity + 1 ≤ intMax
  | _ => True

instance (t : Hashtable K V) : DecidablePred (Op.Within t)
  | .put (some _) (some _) => inferInstanceAs (Decidable (_ → _))
  | .put none _ | .put (some _) none | .remove _ | .clear | .get _ | .containsKey _ | .keys
  | .values | .size | .isEmpty | .iterate _ => inferInstanceAs (Decidable True)

theorem add_one_ne (n : UInt64) : n + 1 ≠ n := by
  intro h
  have hnat := congrArg UInt64.toNat h
  rw [UInt64.toNat_add] at hnat
  have hlt := n.toNat_lt
  simp only [UInt64.reduceToNat] at hnat
  omega

theorem add_two_ne (n : UInt64) : n + 1 + 1 ≠ n := by
  intro h
  have hnat := congrArg UInt64.toNat h
  rw [UInt64.toNat_add, UInt64.toNat_add] at hnat
  have hlt := n.toNat_lt
  simp only [UInt64.reduceToNat] at hnat
  omega

theorem length_foldl_relink (n : ℕ) (es : List (HashtableEntry K V))
    (table : List (List (HashtableEntry K V))) :
    (es.foldl (relink n) table).length = table.length := by
  induction es generalizing table with
  | nil => rfl
  | cons e es ih => rw [List.foldl_cons, ih, relink, List.length_modify]

/-- Growing moves `modCount`. -/
theorem Sized.grow (h : Sized t) (hfit : 2 * t.capacity + 1 ≤ intMax) :
    ∃ t', t.rehash = some t' ∧ Sized t' ∧ t'.modCount = t.modCount + 1 := by
  obtain ⟨t', hrehash, hcapacity, htable, -, hmod, hle⟩ := h.rehash hfit
  refine ⟨t', hrehash, ⟨by rwa [hcapacity], ?_⟩, hmod⟩
  rw [hcapacity, htable, length_foldl_relink, List.length_replicate]

/-- A lookup finds something in a chain with a match. -/
theorem isSome_find? {p : K × ℕ → Bool} {c : List (HashtableEntry K V)} {e : HashtableEntry K V}
    (he : e ∈ c) (hp : p e.1 = true) : (Chain.find? p c).isSome = true := by
  cases hfind : Chain.find? p c with
  | some w => rfl
  | none =>
      have hno := Chain.find?_eq_none_iff.mp hfind e he
      rw [hp] at hno
      cases hno

/-- `ht_put` without its rehash overwrites a value, or it adds an entry and moves `modCount`. -/
theorem insert_cases {k : K} {v : V} {old : Option V}
    (hinsert : t.insert cls k v = some (old, t')) :
    (t.containsKey cls (some k) = some true ∧ Kept t t') ∨
      (t.containsKey cls (some k) = some false ∧ (Sized t → Sized t') ∧
        t'.modCount = t.modCount + 1) := by
  rw [insert] at hinsert
  cases hidx : t.index? (cls.hash k) with
  | none => simp [hidx] at hinsert
  | some idx =>
      cases hc : t.table[idx]? with
      | none => simp [hidx, hc] at hinsert
      | some c =>
          simp only [hidx, hc, Option.bind_eq_bind, Option.bind_some] at hinsert
          have hcontains : t.containsKey cls (some k) =
              some (Chain.find? (cls.test k) c).isSome := by
            simp [containsKey, hidx, hc]
          rw [hcontains]
          cases hreplace : Chain.replace? (cls.test k) v c with
          | none =>
              have hnone := Chain.find?_eq_none_iff.mpr (Chain.replace?_eq_none_iff.mp hreplace)
              simp only [hreplace, Option.some.injEq, Prod.mk.injEq] at hinsert
              obtain ⟨-, rfl⟩ := hinsert
              exact .inr ⟨by rw [hnone]; rfl, fun h => h.exchange, rfl⟩
          | some c' =>
              obtain ⟨c₁, k', w, c₂, rfl, rfl, htest, -⟩ := Chain.replace?_eq_some hreplace
              have hsome : (Chain.find? (cls.test k) (c₁ ++ (k', w) :: c₂)).isSome = true :=
                isSome_find? (e := (k', w)) (by simp) htest
              simp only [hreplace, Option.some.injEq, Prod.mk.injEq] at hinsert
              obtain ⟨-, rfl⟩ := hinsert
              refine .inl ⟨by rw [hsome], rfl, ?_, rfl⟩
              obtain ⟨hlt, hget⟩ := List.getElem?_eq_some_iff.mp hc
              have hmap : idx < (t.table.map List.length).length := by simpa
              have hlen : (c₁ ++ (k', v) :: c₂).length = (t.table.map List.length)[idx] := by
                rw [List.getElem_map, hget]
                simp
              rw [List.map_set, hlen, List.set_getElem_self]

theorem put_spec (h : Sized t) {k : K} {v : V} (hwithin : (Op.put (some k) (some v)).Within t)
    {old : Option V} (hput : t.put cls (some k) (some v) = some (old, t')) :
    Sized t' ∧ ((Op.put (some k) (some v)).Quiet cls t → Kept t t') ∧
      (¬ (Op.put (some k) (some v)).Quiet cls t → t'.modCount ≠ t.modCount) := by
  rw [put] at hput
  by_cases hgrow : t.count ≥ t.threshold
  · have hloud : ¬ (Op.put (some k) (some v)).Quiet cls t := fun hq => absurd hq.1 (not_lt.mpr hgrow)
    obtain ⟨t₁, hrehash, h₁, hmod₁⟩ := h.grow (hwithin hgrow)
    rw [if_pos hgrow, hrehash] at hput
    obtain ⟨-, hkept⟩ | ⟨-, hsized, hmod⟩ := insert_cases hput
    · refine ⟨h₁.of_kept hkept, fun hq => absurd hq hloud, fun _ => ?_⟩
      rw [hkept.modCount, hmod₁]
      exact add_one_ne _
    · refine ⟨hsized h₁, fun hq => absurd hq hloud, fun _ => ?_⟩
      rw [hmod, hmod₁]
      exact add_two_ne _
  · rw [if_neg hgrow] at hput
    obtain ⟨hcontains, hkept⟩ | ⟨hcontains, hsized, hmod⟩ := insert_cases hput
    · exact ⟨h.of_kept hkept, fun _ => hkept, fun hloud => absurd ⟨not_le.mp hgrow, hcontains⟩ hloud⟩
    · refine ⟨hsized h, fun hq => ?_, fun _ => ?_⟩
      · have hcon := hcontains.symm.trans hq.2
        simp at hcon
      · rw [hmod]
        exact add_one_ne _

theorem remove_spec (h : Sized t) {k : K} {old : Option V}
    (hremove : t.remove cls (some k) = some (old, t')) :
    Sized t' ∧ ((Op.remove (some k) : Op K V).Quiet cls t → Kept t t') ∧
      (¬ (Op.remove (some k) : Op K V).Quiet cls t → t'.modCount ≠ t.modCount) := by
  rw [remove] at hremove
  cases hidx : t.index? (cls.hash k) with
  | none => simp [hidx] at hremove
  | some idx =>
      cases hc : t.table[idx]? with
      | none => simp [hidx, hc] at hremove
      | some c =>
          simp only [hidx, hc, Option.bind_eq_bind, Option.bind_some] at hremove
          have hcontains : t.containsKey cls (some k) =
              some (Chain.find? (cls.test k) c).isSome := by
            simp [containsKey, hidx, hc]
          rw [Op.Quiet, hcontains]
          cases hunlink : Chain.unlink? (cls.test k) c with
          | none =>
              have hnone := Chain.find?_eq_none_iff.mpr (Chain.unlink?_eq_none_iff.mp hunlink)
              simp only [hunlink, Option.some.injEq, Prod.mk.injEq] at hremove
              obtain ⟨-, rfl⟩ := hremove
              exact ⟨h, fun _ => .refl t, fun hloud => absurd (by simp [hnone]) hloud⟩
          | some r =>
              obtain ⟨w, c'⟩ := r
              obtain ⟨c₁, k', c₂, rfl, -, htest, -⟩ := Chain.unlink?_eq_some hunlink
              have hsome : (Chain.find? (cls.test k) (c₁ ++ (k', w) :: c₂)).isSome = true :=
                isSome_find? (e := (k', w)) (by simp) htest
              simp only [hunlink, Option.some.injEq, Prod.mk.injEq] at hremove
              obtain ⟨-, rfl⟩ := hremove
              exact ⟨h.exchange, fun hq => absurd (by rw [hsome]) hq, fun _ => add_one_ne _⟩

theorem clear_spec (h : Sized t) (hclear : t.clear = some t') :
    Sized t' ∧ t'.modCount ≠ t.modCount := by
  rw [clear, buckets?, h.sizeOfInt_capacity, if_pos le_rfl] at hclear
  simp only [Option.bind_eq_bind, Option.bind_some, Option.some.injEq] at hclear
  obtain rfl := hclear
  refine ⟨⟨h.capacity_le, ?_⟩, add_one_ne _⟩
  simpa using h.length

/-- **What an operation does to the iterators**: a quiet one keeps the lengths of the chains and
`modCount`, any other one moves `modCount`. -/
theorem exec_spec (h : Sized t) {op : Op K V} (hwithin : op.Within t) {a : Answer K V}
    (hexec : t.exec cls op = some (t', a)) :
    Sized t' ∧ (op.Quiet cls t → Kept t t') ∧ (¬ op.Quiet cls t → t'.modCount ≠ t.modCount) := by
  have hidle : op.Quiet cls t → t = t' →
      Sized t' ∧ (op.Quiet cls t → Kept t t') ∧ (¬ op.Quiet cls t → t'.modCount ≠ t.modCount) := by
    rintro hquiet rfl
    exact ⟨h, fun _ => .refl t, fun hloud => absurd hquiet hloud⟩
  cases op with
  | put key value =>
      obtain ⟨⟨old, t₁⟩, hput, heq⟩ := Option.bind_eq_some_iff.mp hexec
      cases key with
      | none =>
          simp only [put, Option.some.injEq, Prod.mk.injEq] at hput heq
          exact hidle trivial (hput.2.trans heq.1)
      | some key =>
          cases value with
          | none =>
              simp only [put, Option.some.injEq, Prod.mk.injEq] at hput heq
              exact hidle trivial (hput.2.trans heq.1)
          | some value =>
              simp only [Option.some.injEq, Prod.mk.injEq] at heq
              obtain ⟨rfl, -⟩ := heq
              exact put_spec h hwithin hput
  | remove key =>
      obtain ⟨⟨old, t₁⟩, hremove, heq⟩ := Option.bind_eq_some_iff.mp hexec
      simp only [Option.some.injEq, Prod.mk.injEq] at heq
      obtain ⟨rfl, -⟩ := heq
      cases key with
      | none =>
          simp only [remove, Option.some.injEq, Prod.mk.injEq] at hremove
          exact hidle trivial hremove.2
      | some key => exact remove_spec h hremove
  | clear =>
      obtain ⟨t₁, hclear, heq⟩ := Option.bind_eq_some_iff.mp hexec
      simp only [Option.some.injEq, Prod.mk.injEq] at heq
      obtain ⟨rfl, -⟩ := heq
      obtain ⟨hsized, hmod⟩ := clear_spec h hclear
      exact ⟨hsized, False.elim, fun _ => hmod⟩
  | size | isEmpty =>
      simp only [exec, Option.some.injEq, Prod.mk.injEq] at hexec
      exact hidle trivial hexec.1
  | get key | containsKey key | keys | values =>
      obtain ⟨r, -, heq⟩ := Option.bind_eq_some_iff.mp hexec
      simp only [Option.some.injEq, Prod.mk.injEq] at heq
      exact hidle trivial heq.1
  | iterate rounds =>
      obtain ⟨it, -, hrest⟩ := Option.bind_eq_some_iff.mp hexec
      obtain ⟨r, -, heq⟩ := Option.bind_eq_some_iff.mp hrest
      simp only [Option.some.injEq, Prod.mk.injEq] at heq
      exact hidle trivial heq.1

/-! ### Iterators -/

/-- An iterator has an entry of the table at hand, or it is through, and it has kept the table's
`modCount`. -/
structure Live (t : Hashtable K V) (it : HashtableIterator) : Prop where
  modCount : it.expectedModCount = t.modCount
  ahead : ∃ rest, Ahead t it.currentEntry it.currentBucketIndex rest

/-- What an iterator promises: a call of `next` after a `hasNext` that returned `true` returns
`true`, and the loop over the iterator ends. -/
structure Progress (t : Hashtable K V) (it : HashtableIterator) : Prop where
  next : it.hasNext = true → ∃ e it', it.next t = some (some e, it')
  ends : ∃ rounds es it', it.drain t rounds = some (es, it') ∧ it'.hasNext = false

theorem Ahead.of_kept (hkept : Kept t t') {entry : Option (ℕ × ℕ)} {index : ℕ}
    {rest : List (HashtableEntry K V)} (h : Ahead t entry index rest) :
    ∃ rest', Ahead t' entry index rest' := by
  cases h with
  | done => exact ⟨_, .done index⟩
  | @entry bucket place c hc hplace =>
      have hlength : (t'.table.map List.length)[bucket]? = some c.length := by
        rw [hkept.lengths, List.getElem?_map, hc]
        rfl
      rw [List.getElem?_map] at hlength
      obtain ⟨c', hc', hlen⟩ := Option.map_eq_some_iff.mp hlength
      exact ⟨_, .entry hc' (hlen ▸ hplace)⟩

theorem Live.of_kept (hkept : Kept t t') {it : HashtableIterator} (h : Live t it) : Live t' it :=
  ⟨h.modCount.trans hkept.modCount.symm, h.ahead.elim fun _ hahead => hahead.of_kept hkept⟩

/-- `next` on a live iterator with an entry hands it out and leaves the iterator live. -/
theorem Live.next (hsized : Sized t) {it : HashtableIterator} (h : Live t it)
    (hnext : it.hasNext = true) : ∃ e it', it.next t = some (some e, it') ∧ Live t it' := by
  obtain ⟨rest, hahead⟩ := h.ahead
  cases rest with
  | nil => simp [hahead.hasNext] at hnext
  | cons e rest =>
      obtain ⟨it', heq, hmod, hahead'⟩ :=
        next_ahead hsized.sizeOfInt_capacity h.modCount hahead
      exact ⟨_, it', heq, hmod, rest, hahead'⟩

/-- `next` on an iterator without an entry, or of another `modCount`, does nothing. -/
theorem next_eq_of_not {it : HashtableIterator}
    (h : it.hasNext = false ∨ t.modCount ≠ it.expectedModCount) : it.next t = some (none, it) := by
  rw [HashtableIterator.next]
  by_cases hmod : t.modCount ≠ it.expectedModCount
  · rw [if_pos hmod]
  · rw [if_neg hmod]
    have hentry : it.currentEntry = none := by
      simpa [HashtableIterator.hasNext] using h.resolve_right hmod
    rw [hentry]

/-- The loop over an iterator that has lost its table never ends. -/
theorem drain_stale {it : HashtableIterator} (hnext : it.hasNext = true)
    (hmod : t.modCount ≠ it.expectedModCount) (rounds : ℕ) :
    it.drain t rounds = some ([], it) := by
  induction rounds with
  | zero => rfl
  | succ rounds ih =>
      rw [HashtableIterator.drain, if_pos hnext, next_eq_of_not (.inr hmod)]
      simp [ih]

theorem Live.progress (hsized : Sized t) {it : HashtableIterator}
    (h : it.hasNext = true → Live t it) : Progress t it := by
  refine ⟨fun hnext => ?_, ?_⟩
  · obtain ⟨e, it', heq, -⟩ := (h hnext).next hsized hnext
    exact ⟨e, it', heq⟩
  · cases hnext : it.hasNext with
    | false => exact ⟨0, [], it, rfl, hnext⟩
    | true =>
        obtain ⟨hmod, rest, hahead⟩ := h hnext
        obtain ⟨it', hdrain, hhas⟩ :=
          drain_ahead hsized.sizeOfInt_capacity rest.length hmod hahead
        exact ⟨_, _, it', hdrain, by simpa using hhas⟩

/-! ### Runs -/

/-- A table and the iterators that are open on it. -/
structure Session (K V : Type) where
  table : Hashtable K V
  iterators : List HashtableIterator

/-- A call: an operation of the table, a new iterator, or `next` on an open one. `hasNext` changes
nothing. -/
inductive Call (K V : Type)
  | table (op : Op K V)
  | iterator
  | next (i : ℕ)

/-- The session after a call. -/
def Session.exec (cls : KeyClass K) (s : Session K V) : Call K V → Option (Session K V)
  | .table op => (s.table.exec cls op).map fun r => { s with table := r.1 }
  | .iterator => s.table.iterator.map fun it => { s with iterators := s.iterators ++ [it] }
  | .next i =>
      match s.iterators[i]? with
      | none => some s
      | some it => (it.next s.table).map fun r => { s with iterators := s.iterators.set i r.2 }

/-- The session after some calls. -/
def Session.run (cls : KeyClass K) (s : Session K V) : List (Call K V) → Option (Session K V)
  | [] => some s
  | call :: calls => (s.exec cls call).bind fun s' => s'.run cls calls

/-- A call of an operation keeps the capacity an `int`. -/
def Call.Within (s : Session K V) : Call K V → Prop
  | .table op => op.Within s.table
  | _ => True

instance (s : Session K V) : DecidablePred (Call.Within s)
  | .table op => inferInstanceAs (Decidable (op.Within s.table))
  | .iterator | .next _ => inferInstanceAs (Decidable True)

/-- A call disturbs no iterator: it is no operation that moves `modCount` while an open iterator
has an entry ahead. -/
def Call.Calm (cls : KeyClass K) (s : Session K V) : Call K V → Prop
  | .table op => op.Quiet cls s.table ∨ ∀ it ∈ s.iterators, it.hasNext = false
  | _ => True

instance (cls : KeyClass K) (s : Session K V) : DecidablePred (Call.Calm cls s)
  | .table op => inferInstanceAs (Decidable (op.Quiet cls s.table ∨ _))
  | .iterator | .next _ => inferInstanceAs (Decidable True)

/-- Each call of a run that returns has a property of the session before it. -/
def Session.Throughout (cls : KeyClass K) (P : Session K V → Call K V → Prop) :
    Session K V → List (Call K V) → Prop
  | _, [] => True
  | s, call :: calls => ∀ s' ∈ s.exec cls call, P s call ∧ s'.Throughout cls P calls

instance Session.Throughout.decidable (cls : KeyClass K) (P : Session K V → Call K V → Prop)
    [∀ s, DecidablePred (P s)] : (s : Session K V) → DecidablePred (s.Throughout cls P)
  | _, [] => inferInstanceAs (Decidable True)
  | s, call :: calls =>
      have : DecidablePred fun s' : Session K V => P s call ∧ s'.Throughout cls P calls := fun s' =>
        have := Session.Throughout.decidable cls P s' calls
        inferInstanceAs (Decidable (_ ∧ _))
      inferInstanceAs (Decidable (∀ s' ∈ s.exec cls call, P s call ∧ s'.Throughout cls P calls))

/-- Open iterators with an entry ahead are live. -/
structure Session.Inv (s : Session K V) : Prop where
  sized : Sized s.table
  live : ∀ it ∈ s.iterators, it.hasNext = true → Live s.table it

theorem Session.Inv.progress {s : Session K V} (h : s.Inv) :
    ∀ it ∈ s.iterators, Progress s.table it :=
  fun it hit => Live.progress h.sized (h.live it hit)

/-- A new iterator is live. -/
theorem live_iterator (h : Sized t) : ∃ it, t.iterator = some it ∧ Live t it := by
  obtain ⟨entry, index, hscan, hahead⟩ := scanFrom_ahead h.sizeOfInt_capacity (Nat.zero_le _)
  exact ⟨⟨index, entry, t.modCount⟩, by simp [iterator, hscan], rfl, _, hahead⟩

/-- **A calm call** keeps the iterators live. -/
theorem Session.Inv.exec {s s' : Session K V} (h : s.Inv) {call : Call K V}
    (hwithin : call.Within s) (hcalm : call.Calm cls s) (hexec : s.exec cls call = some s') :
    s'.Inv := by
  cases call with
  | table op =>
      obtain ⟨⟨t', a⟩, hop, rfl⟩ := Option.map_eq_some_iff.mp hexec
      obtain ⟨hsized, hquiet, -⟩ := exec_spec h.sized hwithin hop
      refine ⟨hsized, fun it hit hnext => ?_⟩
      rcases hcalm with hq | hidle
      · exact (h.live it hit hnext).of_kept (hquiet hq)
      · rw [hidle it hit] at hnext
        cases hnext
  | iterator =>
      obtain ⟨it', hit', hlive⟩ := live_iterator h.sized
      obtain ⟨it₁, hit₁, rfl⟩ := Option.map_eq_some_iff.mp hexec
      obtain rfl : it' = it₁ := Option.some.inj (hit'.symm.trans hit₁)
      refine ⟨h.sized, fun it hit hnext => ?_⟩
      rcases List.mem_append.mp hit with hit | hit
      · exact h.live it hit hnext
      · rw [List.mem_singleton.mp hit]
        exact hlive
  | next i =>
      rw [Session.exec] at hexec
      cases hi : s.iterators[i]? with
      | none =>
          simp only [hi, Option.some.injEq] at hexec
          exact hexec ▸ h
      | some it =>
          simp only [hi] at hexec
          obtain ⟨⟨e, it'⟩, hnext, rfl⟩ := Option.map_eq_some_iff.mp hexec
          have hmem : it ∈ s.iterators := List.mem_of_getElem? hi
          refine ⟨h.sized, fun it₁ hit₁ hhas => ?_⟩
          rcases List.mem_or_eq_of_mem_set hit₁ with hit₁ | rfl
          · exact h.live it₁ hit₁ hhas
          · cases hit : it.hasNext with
            | true =>
                obtain ⟨e', it₂, heq, hlive⟩ := (h.live it hmem hit).next h.sized hit
                rw [heq] at hnext
                cases hnext
                exact hlive
            | false =>
                rw [next_eq_of_not (.inl hit)] at hnext
                cases hnext
                exact h.live it hmem hhas

/-- An operation that is not calm leaves an iterator behind that makes no progress. -/
theorem Session.Inv.stuck {s s' : Session K V} (h : s.Inv) {call : Call K V}
    (hwithin : call.Within s) (hloud : ¬ call.Calm cls s) (hexec : s.exec cls call = some s') :
    ∃ it ∈ s'.iterators, ¬ Progress s'.table it := by
  cases call with
  | table op =>
      obtain ⟨hquiet, hidle⟩ := not_or.mp hloud
      push Not at hidle
      obtain ⟨it, hit, hhas⟩ := hidle
      obtain ⟨⟨t', a⟩, hop, rfl⟩ := Option.map_eq_some_iff.mp hexec
      obtain ⟨-, -, hmoved⟩ := exec_spec h.sized hwithin hop
      rw [ne_eq, Bool.not_eq_false] at hhas
      have hmod : t'.modCount ≠ it.expectedModCount :=
        (h.live it hit hhas).modCount ▸ hmoved hquiet
      refine ⟨it, hit, fun hprogress => ?_⟩
      obtain ⟨e, it', heq⟩ := hprogress.next hhas
      rw [next_eq_of_not (.inr hmod)] at heq
      cases heq
  | iterator => exact absurd trivial hloud
  | next i => exact absurd trivial hloud

/-- **Iterators make progress** in every state of a run, each `next` after a `hasNext` returning
`true` and each loop ending, exactly if no operation of the run moves `modCount` while an open
iterator has an entry ahead. -/
theorem iterators_progress_iff (cls : KeyClass K) (t : Hashtable K V) (ht : Sized t)
    (calls : List (Call K V)) (hwithin : Session.Throughout cls Call.Within ⟨t, []⟩ calls) :
    (∀ k, ∀ s ∈ Session.run cls ⟨t, []⟩ (calls.take k), ∀ it ∈ s.iterators, Progress s.table it) ↔
      Session.Throughout cls (Call.Calm cls) ⟨t, []⟩ calls := by
  have hinv : Session.Inv ⟨t, []⟩ := ⟨ht, by simp⟩
  revert hwithin hinv
  generalize (⟨t, []⟩ : Session K V) = s
  intro hwithin hinv
  induction calls generalizing s with
  | nil =>
      refine iff_of_true (fun k s' hs' => ?_) trivial
      rw [List.take_nil] at hs'
      obtain rfl := Option.some.inj hs'
      exact hinv.progress
  | cons call calls ih =>
      constructor
      · intro hall s' hs'
        obtain ⟨hcall, hrest⟩ := hwithin s' hs'
        have hafter : ∀ k, Session.run cls s ((call :: calls).take (k + 1)) =
            s'.run cls (calls.take k) := by
          intro k
          rw [List.take_succ_cons, Session.run, hs', Option.bind_some]
        have hcalm : call.Calm cls s := by
          by_contra hloud
          obtain ⟨it, hit, hstuck⟩ := hinv.stuck hcall hloud hs'
          exact hstuck (hall 1 s' (by rw [hafter 0]; rfl) it hit)
        refine ⟨hcalm, (ih s' hrest (hinv.exec hcall hcalm hs')).mp fun k s'' hs'' => ?_⟩
        exact hall (k + 1) s'' (by rw [hafter k]; exact hs'')
      · intro hcalm k s'' hs''
        cases k with
        | zero =>
            obtain rfl := Option.some.inj hs''
            exact hinv.progress
        | succ k =>
            obtain ⟨s', hs', hrun⟩ := Option.bind_eq_some_iff.mp hs''
            obtain ⟨hcall, hrest⟩ := hwithin s' hs'
            obtain ⟨hquiet, hcalms⟩ := hcalm s' hs'
            exact (ih s' hrest (hinv.exec hcall hquiet hs')).mpr hcalms k s'' hrun

/-- The table of the samples, with two buckets. -/
def smallTable : Hashtable ℕ ℕ := Hashtable.new 2 fun c => c * 3 / 4

theorem sized_smallTable : Sized smallTable := ⟨by decide, by decide⟩

/-- The value of a key is replaced under an open iterator, and a key is removed when the iterator
is through. -/
theorem iterators_progress_iff_sample :
    let calls : List (Call ℕ ℕ) := [.table (.put (some 1) (some 10)), .table (.put (some 3) (some 30)),
      .iterator, .next 0, .table (.put (some 1) (some 11)), .next 0, .table (.remove (some 1))]
    ∀ k, ∀ s ∈ Session.run natKeys.toKeyClass ⟨smallTable, []⟩ (calls.take k),
      ∀ it ∈ s.iterators, Progress s.table it := by
  intro calls
  have hwithin : Session.Throughout natKeys.toKeyClass Call.Within ⟨smallTable, []⟩ calls := by
    decide +kernel
  refine (iterators_progress_iff _ _ sized_smallTable calls hwithin).mpr ?_
  decide +kernel

/-- The only key is removed under an iterator: `hasNext` stays `true` and `next` stays `false`. -/
theorem iterator_stuck :
    ∃ s, Session.run natKeys.toKeyClass ⟨smallTable, []⟩
        [.table (.put (some 1) (some 10)), .iterator, .table (.remove (some 1))] = some s ∧
      ∃ it ∈ s.iterators, it.hasNext = true ∧ it.next s.table = some (none, it) ∧
        ∀ rounds, it.drain s.table rounds = some ([], it) := by
  refine ⟨_, rfl, ⟨2, some (1, 0), 1⟩, List.mem_singleton.mpr rfl, rfl, rfl, fun rounds => ?_⟩
  exact drain_stale rfl (by decide) rounds

end Hashtable
