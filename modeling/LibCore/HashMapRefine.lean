import LibCore.CInt
import LibCore.HashMap

/-!
# `HashMap` Refines a Finite Map

The abstract state of a map is a `Finmap` from byte strings to values. `Op` lists the
operations of the function table, `HashMap.exec` runs one on the chained representation
and `Op.apply` and `Op.Answers` say what a finite map does. The two are tied by
`Represents`: the nodes are the entries of the finite map, each in the bucket of its key,
and `size` counts them.

Keys below `MAX_KEY_LEN` bytes are compared in full by `strncmp`, so on such keys the
comparison is equality and the chained table is exact. A run in which `size`, an `int`, would
leave its range has no answers, so there may be `INT_MAX` keys at a time (`FewKeys`).

## Main results

* `represents_new`, `Represents.exec`: the initial map represents the empty finite map,
  and every operation preserves the representation.
* `Represents.answers`: every operation answers as the finite map does.
* `run_agrees`: the answers of a whole run are those of a finite map.
-/

open CString

namespace HashMap

variable {V : Type}

/-- The operations of the function table. -/
inductive Op (V : Type)
  | put (key : Bytes) (value : V)
  | get (key : Bytes)
  | hasKey (key : Bytes)
  | remove (key : Bytes)
  | detach (key : Bytes)
  | clear
  | keys
  | values
  | iterate
  | getSize

/-- What an operation hands back. -/
inductive Answer (V : Type)
  | none
  | value (v : Option V)
  | flag (b : Bool)
  | size (n : ℤ)
  | keys (ks : List Bytes)
  | values (vs : List V)
  | entries (es : List (Bytes × V))

/-- The iterator callback that records every entry it is shown and asks for the next. -/
def record (key : Bytes) (value : V) (seen : List (Bytes × V)) : Bool × List (Bytes × V) :=
  (true, seen ++ [(key, value)])

/-- One operation on the chained table. -/
def exec (m : HashMap V) : Op V → HashMap V × Answer V
  | .put key value => (m.put key value, .none)
  | .get key => (m, .value (m.get key))
  | .hasKey key => (m, .flag (m.hasKey key))
  | .remove key => (m.remove key, .none)
  | .detach key => ((m.detach key).2, .value (m.detach key).1)
  | .clear => (m.clear, .none)
  | .keys => (m, .keys m.keys)
  | .values => (m, .values m.values)
  | .iterate => (m, .entries (m.iterate record []))
  | .getSize => (m, .size m.getSize)

/-- A run of operations: the answers, in order; `none` where `size` leaves its range. -/
def run : HashMap V → List (Op V) → Option (List (Answer V))
  | _, [] => some []
  | m, op :: ops =>
      if FitsInt (m.exec op).1.size then (run (m.exec op).1 ops).map ((m.exec op).2 :: ·) else none

/-- The keys an operation names are shorter than the compared prefix. -/
def Op.ShortKey : Op V → Prop
  | .put key _ | .get key | .hasKey key | .remove key | .detach key => key.length < maxKeyLen
  | .clear | .keys | .values | .iterate | .getSize => True

instance : DecidablePred (Op.ShortKey : Op V → Prop)
  | .put key _ | .get key | .hasKey key | .remove key | .detach key =>
      inferInstanceAs (Decidable (key.length < maxKeyLen))
  | .clear | .keys | .values | .iterate | .getSize => inferInstanceAs (Decidable True)

/-! ### The finite map -/

/-- A finite map from byte strings to values. -/
abbrev FMap (V : Type) := Finmap fun _ : Bytes => V

/-- An entry as the dependent pair `Finmap` stores. -/
def toSigma (e : Bytes × V) : (_ : Bytes) × V := ⟨e.1, e.2⟩

/-- What an operation does to a finite map. -/
def Op.apply (f : FMap V) : Op V → FMap V
  | .put key value => f.insert key value
  | .remove key | .detach key => f.erase key
  | .clear => ∅
  | .get _ | .hasKey _ | .keys | .values | .iterate | .getSize => f

/-- What an operation on a finite map may answer. The traversals promise no order: each
lists every present entry exactly once. -/
def Op.Answers (f : FMap V) : Op V → Answer V → Prop
  | .put _ _, r | .remove _, r | .clear, r => r = .none
  | .get key, r | .detach key, r => r = .value (f.lookup key)
  | .hasKey key, r => r = .flag (f.lookup key).isSome
  | .getSize, r => r = .size f.keys.card
  | .keys, r => ∃ ks : List Bytes, r = .keys ks ∧ (ks : Multiset Bytes) = f.keys.val
  | .values, r => ∃ vs : List V, r = .values vs ∧
      (vs : Multiset V) = f.entries.map Sigma.snd
  | .iterate, r => ∃ es : List (Bytes × V), r = .entries es ∧
      ((es.map toSigma : List _) : Multiset _) = f.entries

/-- A run of answers is one a finite map could give from state `f` on. -/
def Agrees : FMap V → List (Op V) → List (Answer V) → Prop
  | _, [], [] => True
  | f, op :: ops, r :: rs => op.Answers f r ∧ Agrees (op.apply f) ops rs
  | _, _, _ => False

/-- At no time there are more keys than an `int` counts. -/
def FewKeys (f : FMap V) (ops : List (Op V)) : Prop :=
  ∀ ops', ops' <+: ops → (ops'.foldl Op.apply f).keys.card ≤ 2147483647

/-- An operation adds one key at most. -/
theorem Op.card_apply_le (f : FMap V) (op : Op V) : (op.apply f).keys.card ≤ f.keys.card + 1 := by
  cases op with
  | put key value =>
      have hsub : (f.insert key value).keys ⊆ insert key f.keys := fun k hk => by
        rw [Finset.mem_insert, Finmap.mem_keys]
        exact Finmap.mem_insert.mp (Finmap.mem_keys.mp hk)
      exact (Finset.card_le_card hsub).trans (Finset.card_insert_le _ _)
  | remove key | detach key =>
      change (f.erase key).keys.card ≤ _
      rw [Finmap.keys_erase]
      exact (Finset.card_erase_le).trans (Nat.le_succ _)
  | clear => exact Nat.zero_le _
  | get key | hasKey key | keys | values | iterate | getSize => exact Nat.le_succ _

/-- A short run never has many keys. -/
theorem fewKeys_of_length {f : FMap V} {ops : List (Op V)}
    (h : f.keys.card + ops.length ≤ 2147483647) : FewKeys f ops := by
  induction ops generalizing f with
  | nil =>
      rintro ops' hprefix
      rw [List.prefix_nil.mp hprefix]
      exact h
  | cons op ops ih =>
      rintro (- | ⟨op', ops'⟩) hprefix
      · exact (Nat.le_add_right _ _).trans h
      · obtain ⟨rfl, htail⟩ := List.cons_prefix_cons.mp hprefix
        have hcard := op'.card_apply_le f
        rw [List.length_cons] at h
        exact ih (by omega) ops' htail

/-! ### The representation -/

/-- A finite map with one entry. -/
theorem lookup_single {k k' : Bytes} {v v' : V}
    (h : ((∅ : FMap V).insert k v).lookup k' = some v') : k' = k ∧ v' = v := by
  by_cases hk : k' = k
  · subst hk
    rw [Finmap.lookup_insert] at h
    exact ⟨rfl, (Option.some.inj h).symm⟩
  · rw [Finmap.lookup_insert_of_ne _ hk, Finmap.lookup_empty] at h
    cases h

/-- Every node lies in the bucket of its key. -/
def Placed (m : HashMap V) : Prop :=
  ∀ j c, m.buckets[j]? = some c → ∀ e ∈ c, m.index e.1 = j

/-- The chained table `m` represents the finite map `f`. -/
structure Represents (m : HashMap V) (f : FMap V) : Prop where
  capacity_pos : 0 < m.capacity
  placed : m.Placed
  keys_nodup : (m.entries.map Prod.fst).Nodup
  mem_iff : ∀ k v, (k, v) ∈ m.entries ↔ f.lookup k = some v
  size : m.size = m.entries.length

/-- A node of a placed table is found in the bucket of its key. -/
theorem Placed.mem_bucket {m : HashMap V} (h : m.Placed) {e : Bytes × V}
    (he : e ∈ m.entries) : e ∈ m.bucket e.1 := by
  obtain ⟨c, hc, hec⟩ := List.mem_flatten.mp he
  obtain ⟨j, hj⟩ := List.mem_iff_getElem?.mp hc
  have hi := h j c hj e hec
  rw [bucket, hi, List.getD_eq_getElem?_getD, hj]
  exact hec

/-- The nodes of one bucket of a placed table share its index. -/
theorem Placed.index_of_mem {m : HashMap V} (h : m.Placed) {key : Bytes} {e : Bytes × V}
    (he : e ∈ m.bucket key) : m.index e.1 = m.index key := by
  rw [bucket, List.getD_eq_getElem?_getD] at he
  cases hb : m.buckets[m.index key]? with
  | none => simp [hb] at he
  | some c =>
      rw [hb, Option.getD_some] at he
      exact h _ c hb e he

/-- Exchanging one bucket for a chain of nodes that belong there keeps every node in the
bucket of its key. -/
theorem Placed.setBucket {m : HashMap V} (h : m.Placed) {key : Bytes}
    {c : List (Bytes × V)} (hc : ∀ e ∈ c, m.index e.1 = m.index key) (s : ℤ) :
    (m.setBucket key c s).Placed := by
  intro j d hj e he
  rw [buckets_setBucket, List.getElem?_set] at hj
  rw [index_setBucket]
  split at hj
  · split at hj
    · rw [Option.some.injEq] at hj
      subst hj
      rename_i hjk _
      exact (hc e he).trans hjk
    · simp at hj
  · exact h j d hj e he

/-- A `put` keeps every node in the bucket of its key. -/
theorem Placed.put {m : HashMap V} (h : m.Placed) (key : Bytes) (v : V) :
    (m.put key v).Placed := by
  unfold HashMap.put
  cases hr : Chain.replace? (keyMatches key) v (m.bucket key) with
  | none =>
      refine h.setBucket (fun e he => ?_) _
      rcases List.mem_cons.mp he with rfl | he
      · rfl
      · exact h.index_of_mem he
  | some c =>
      obtain ⟨c₁, k, w, c₂, hb, rfl, -, -⟩ := Chain.replace?_eq_some hr
      refine h.setBucket (fun e he => ?_) _
      -- the rewritten node keeps its key
      have hmem : ∀ e ∈ c₁ ++ (k, w) :: c₂, m.index e.1 = m.index key :=
        fun e he => h.index_of_mem (hb ▸ he)
      rcases List.mem_append.mp he with he | he
      · exact hmem e (by simp [he])
      · rcases List.mem_cons.mp he with rfl | he
        · exact hmem (k, w) (by simp)
        · exact hmem e (by simp [he])

/-- A `detach` keeps every node in the bucket of its key. -/
theorem Placed.detach {m : HashMap V} (h : m.Placed) (key : Bytes) :
    (m.detach key).2.Placed := by
  unfold HashMap.detach
  cases hr : Chain.unlink? (keyMatches key) (m.bucket key) with
  | none => exact h
  | some r =>
      obtain ⟨w, c⟩ := r
      obtain ⟨c₁, k, c₂, hb, rfl, -, -⟩ := Chain.unlink?_eq_some hr
      refine h.setBucket (fun e he => h.index_of_mem (hb ▸ ?_)) _
      rcases List.mem_append.mp he with he | he <;> simp [he]

/-! ### Lookup -/

/-- On a short key the node comparison is equality. -/
theorem keyMatches_short {k k' : Bytes} (h : k.length < maxKeyLen) :
    keyMatches k k' = true ↔ k' = k :=
  strncmpEq_iff_of_lt h

/-- A lookup finds the entry of its key, when the node comparison tells it from the others. -/
theorem get_eq_some_iff {m : HashMap V} (hcap : 0 < m.capacity) (hplaced : m.Placed)
    (hnodup : (m.entries.map Prod.fst).Nodup) {k : Bytes} {v : V}
    (hk : ∀ e ∈ m.entries, keyMatches k e.1 = true ↔ e.1 = k) :
    m.get k = some v ↔ (k, v) ∈ m.entries := by
  have hnd : ((m.bucket k).map Prod.fst).Nodup := by
    have hp := (entries_perm_bucket hcap k).map Prod.fst
    have := hp.nodup_iff.mp hnodup
    rw [List.map_append] at this
    exact (List.nodup_append.mp this).1
  rw [HashMap.get,
    Chain.find?_eq_some_iff_mem (fun e he => hk e (mem_entries_of_mem_bucket he)) hnd]
  exact ⟨mem_entries_of_mem_bucket, hplaced.mem_bucket⟩

/-- Keys that differ within the compared bytes are all found. -/
theorem get_of_mem {m : HashMap V} (hcap : 0 < m.capacity) (hplaced : m.Placed)
    (hnodup : (m.entries.map fun e => e.1.take maxKeyLen).Nodup) {e : Bytes × V}
    (he : e ∈ m.entries) : m.get e.1 = some e.2 := by
  have hkeys : (m.entries.map Prod.fst).Nodup := by
    refine List.Nodup.of_map (List.take maxKeyLen) ?_
    simpa [List.map_map, Function.comp_def] using hnodup
  refine (get_eq_some_iff hcap hplaced hkeys fun e' he' => ?_).mpr he
  rw [keyMatches_iff]
  refine ⟨fun htake => ?_, fun heq => by rw [heq]⟩
  exact congrArg Prod.fst (List.inj_on_of_nodup_map hnodup he' he htake)

/-- A lookup of a short key reads the finite map. -/
theorem Represents.get {m : HashMap V} {f : FMap V} (h : Represents m f) {k : Bytes}
    (hk : k.length < maxKeyLen) : m.get k = f.lookup k := by
  ext v
  rw [get_eq_some_iff h.capacity_pos h.placed h.keys_nodup fun e _ => keyMatches_short hk,
    ← h.mem_iff]

/-- The nodes of the table are the entries of the finite map. -/
theorem Represents.entries {m : HashMap V} {f : FMap V} (h : Represents m f) :
    ((m.entries.map toSigma : List _) : Multiset ((_ : Bytes) × V)) = f.entries := by
  have hinj : Function.Injective (toSigma : Bytes × V → (_ : Bytes) × V) := by
    rintro ⟨k, v⟩ ⟨k', v'⟩ heq
    simpa [toSigma] using heq
  have hnd : (m.entries.map toSigma).Nodup :=
    (List.Nodup.of_map Prod.fst h.keys_nodup).map hinj
  refine (Multiset.Nodup.ext (Multiset.coe_nodup.mpr hnd) f.nodup_entries).mpr ?_
  rintro ⟨k, v⟩
  rw [← Finmap.lookup_eq_some_iff, ← h.mem_iff, Multiset.mem_coe]
  exact List.mem_map_of_injective hinj (a := (k, v))

/-- The keys of the table are the keys of the finite map. -/
theorem Represents.keys {m : HashMap V} {f : FMap V} (h : Represents m f) :
    (m.keys : Multiset Bytes) = f.keys.val := by
  change (m.keys : Multiset Bytes) = f.entries.keys
  rw [← h.entries, Multiset.coe_keys, List.keys, List.map_map]
  rfl

/-! ### Preservation by the operations -/

/-- The initial map represents the empty finite map. -/
theorem represents_new (n : ℤ) : Represents (new n : HashMap V) ∅ where
  capacity_pos := capacity_new_pos n
  placed := by
    intro j c hj e he
    have hc : c ∈ (new n : HashMap V).buckets := List.mem_of_getElem? hj
    have : e ∈ (new n : HashMap V).entries := List.mem_flatten.mpr ⟨c, hc, he⟩
    simp at this
  keys_nodup := by simp
  mem_iff := by simp
  size := by simp [new, HashMap.entries]

/-- The table after a change that leaves `(k, v)` in front of entries under other keys. -/
theorem Represents.insert {m m' : HashMap V} {f : FMap V} (h : Represents m f) {k : Bytes}
    {v : V} {rest : List (Bytes × V)} (hcap : m'.capacity = m.capacity) (hp : m'.Placed)
    (hperm : m'.entries.Perm ((k, v) :: rest)) (hk : k ∉ rest.map Prod.fst)
    (hnd : (rest.map Prod.fst).Nodup)
    (hrest : ∀ k' v', k' ≠ k → ((k', v') ∈ rest ↔ (k', v') ∈ m.entries))
    (hsize : m'.size = rest.length + 1) : Represents m' (f.insert k v) where
  capacity_pos := hcap ▸ h.capacity_pos
  placed := hp
  keys_nodup := by
    rw [(hperm.map Prod.fst).nodup_iff, List.map_cons, List.nodup_cons]
    exact ⟨hk, hnd⟩
  mem_iff := by
    intro k' v'
    rw [hperm.mem_iff, List.mem_cons]
    by_cases hkk : k' = k
    · subst hkk
      have hnot : (k', v') ∉ rest := fun hm => hk (List.mem_map.mpr ⟨(k', v'), hm, rfl⟩)
      simp [hnot, eq_comm]
    · rw [Finmap.lookup_insert_of_ne _ hkk, ← h.mem_iff, ← hrest k' v' hkk]
      simp [hkk]
  size := by
    rw [hsize, hperm.length_eq]
    simp

/-- The entries of a table with one of them in front. -/
theorem Represents.of_perm_cons {m : HashMap V} {f : FMap V} (h : Represents m f) {k : Bytes}
    {w : V} {rest : List (Bytes × V)} (hperm : m.entries.Perm ((k, w) :: rest)) :
    k ∉ rest.map Prod.fst ∧ (rest.map Prod.fst).Nodup ∧ m.size = rest.length + 1 ∧
      ∀ k' v', k' ≠ k → ((k', v') ∈ rest ↔ (k', v') ∈ m.entries) := by
  have hnd := (hperm.map Prod.fst).nodup_iff.mp h.keys_nodup
  rw [List.map_cons, List.nodup_cons] at hnd
  refine ⟨hnd.1, hnd.2, by rw [h.size, hperm.length_eq]; simp, fun k' v' hk' => ?_⟩
  rw [hperm.mem_iff, List.mem_cons]
  simp [hk']

/-- `put` inserts. -/
theorem Represents.put {m : HashMap V} {f : FMap V} (h : Represents m f) {k : Bytes}
    (hk : k.length < maxKeyLen) (v : V) : Represents (m.put k v) (f.insert k v) := by
  by_cases hex : ∃ e ∈ m.bucket k, keyMatches k e.1 = true
  · obtain ⟨k', w, rest, hm, -, hperm, hput, hsize⟩ :=
      put_entries_perm_of_match h.capacity_pos hex v
    obtain rfl := (keyMatches_short hk).mp hm
    obtain ⟨h1, h2, h3, h4⟩ := h.of_perm_cons hperm
    exact h.insert (capacity_put m _ v) (h.placed.put _ v) hput h1 h2 h4 (hsize.trans h3)
  · have hfresh : ∀ e ∈ m.bucket k, keyMatches k e.1 = false := by
      intro e he
      rw [Bool.eq_false_iff]
      exact fun hm => hex ⟨e, he, hm⟩
    obtain ⟨hperm, hsize⟩ := put_entries_perm_of_fresh h.capacity_pos hfresh v
    refine h.insert (capacity_put m k v) (h.placed.put k v) hperm ?_ h.keys_nodup
      (fun _ _ _ => Iff.rfl) (by rw [hsize, h.size])
    intro hmem
    obtain ⟨e, he, rfl⟩ := List.mem_map.mp hmem
    have := hfresh e (h.placed.mem_bucket he)
    rw [(keyMatches_short hk).mpr rfl] at this
    exact absurd this (by simp)

/-- Distinct short keys are all stored. -/
theorem Represents.foldl_put {m : HashMap V} {f : FMap V} (hm : Represents m f)
    {es : List (Bytes × V)} (hshort : ∀ e ∈ es, e.1.length < maxKeyLen)
    (hnodup : (es.map Prod.fst).Nodup) :
    ∃ f', Represents (es.foldl (fun m e => m.put e.1 e.2) m) f' ∧
      (∀ e ∈ es, f'.lookup e.1 = some e.2) ∧
      ∀ k, (∀ e ∈ es, e.1 ≠ k) → f'.lookup k = f.lookup k := by
  induction es generalizing m f with
  | nil => exact ⟨f, hm, by simp, fun _ _ => rfl⟩
  | cons e es ih =>
      obtain ⟨he, hshort⟩ := List.forall_mem_cons.mp hshort
      rw [List.map_cons, List.nodup_cons] at hnodup
      obtain ⟨f', hf', hin, hout⟩ := ih (hm.put he e.2) hshort hnodup.2
      have hfresh : ∀ d ∈ es, d.1 ≠ e.1 := fun d hd heq => hnodup.1 (heq ▸ List.mem_map_of_mem hd)
      refine ⟨f', hf', List.forall_mem_cons.mpr ⟨?_, hin⟩, fun k hk => ?_⟩
      · rw [hout _ hfresh, Finmap.lookup_insert]
      · obtain ⟨hke, hk⟩ := List.forall_mem_cons.mp hk
        rw [hout k hk, Finmap.lookup_insert_of_ne _ hke.symm]

/-- The entries of a table with short keys, put into a new one, represent the same finite map. -/
theorem Represents.rebuild {m : HashMap V} {f : FMap V} (hm : Represents m f)
    (hshort : ∀ e ∈ m.entries, e.1.length < maxKeyLen) (n : ℤ) :
    Represents (m.entries.foldl (fun m e => m.put e.1 e.2) (new n)) f := by
  obtain ⟨f', hf', hin, hout⟩ := (represents_new n).foldl_put hshort hm.keys_nodup
  have heq : f' = f := by
    refine Finmap.ext_lookup fun k => ?_
    by_cases hex : ∃ e ∈ m.entries, e.1 = k
    · obtain ⟨e, he, rfl⟩ := hex
      rw [hin e he]
      exact ((hm.mem_iff e.1 e.2).mp he).symm
    · rw [hout k fun e he heq => hex ⟨e, he, heq⟩, Finmap.lookup_empty, eq_comm,
        Option.eq_none_iff_forall_ne_some]
      exact fun v hv => hex ⟨(k, v), (hm.mem_iff k v).mpr hv, rfl⟩
  exact heq ▸ hf'

/-- `detach` erases. -/
theorem Represents.detach {m : HashMap V} {f : FMap V} (h : Represents m f) {k : Bytes}
    (hk : k.length < maxKeyLen) : Represents (m.detach k).2 (f.erase k) := by
  cases hd : (m.detach k).1 with
  | none =>
      have hnone : m.get k = none := by rw [← detach_fst, hd]
      have hf : f.erase k = f := by
        refine Finmap.ext_lookup fun k' => ?_
        by_cases hkk : k' = k
        · rw [hkk, Finmap.lookup_erase, ← h.get hk, hnone]
        · rw [Finmap.lookup_erase_ne hkk]
      rwa [detach_of_get_none hnone, hf]
  | some v =>
      obtain ⟨k', hm, -, hperm, hsize⟩ := detach_entries_perm h.capacity_pos hd
      obtain rfl := (keyMatches_short hk).mp hm
      obtain ⟨h1, h2, h3, h4⟩ := h.of_perm_cons hperm
      refine ⟨?_, h.placed.detach _, h2, ?_, by rw [hsize, h3]; ring⟩
      · rw [capacity_detach]
        exact h.capacity_pos
      · intro k v'
        by_cases hkk : k = k'
        · subst hkk
          rw [Finmap.lookup_erase]
          simpa using fun hmem => h1 (List.mem_map.mpr ⟨(k, v'), hmem, rfl⟩)
        · rw [Finmap.lookup_erase_ne hkk, h4 k v' hkk, h.mem_iff]

/-- `clear` empties. -/
theorem represents_clear {m : HashMap V} (hm : 0 < m.capacity) :
    Represents m.clear (∅ : FMap V) := by
  have hempty : m.clear.entries = [] := by simp [HashMap.entries, clear]
  refine ⟨by simpa [capacity, clear] using hm, ?_, by simp [hempty], by simp [hempty],
    by rw [hempty]; rfl⟩
  intro j c hj e he
  have : e ∈ m.clear.entries := List.mem_flatten.mpr ⟨c, List.mem_of_getElem? hj, he⟩
  simp [hempty] at this

/-- One operation preserves the representation. -/
theorem Represents.exec {m : HashMap V} {f : FMap V} (h : Represents m f) {op : Op V}
    (hop : op.ShortKey) : Represents (m.exec op).1 (op.apply f) := by
  cases op with
  | put key value => exact h.put hop value
  | remove key | detach key => exact h.detach hop
  | clear => exact represents_clear h.capacity_pos
  | get key | hasKey key | keys | values | iterate | getSize => exact h

/-! ### Answers -/

/-- The recording iterator is shown every entry. -/
theorem iterateFrom_record (nodes seen : List (Bytes × V)) :
    iterateFrom record nodes seen = seen ++ nodes := by
  induction nodes generalizing seen with
  | nil => simp [iterateFrom]
  | cons e nodes ih =>
      obtain ⟨key, value⟩ := e
      simp [iterateFrom, record, ih]

/-- The number of entries is the number of keys. -/
theorem Represents.card_keys {m : HashMap V} {f : FMap V} (h : Represents m f) :
    m.size = f.keys.card := by
  rw [h.size, Finset.card, ← h.keys, Multiset.coe_card, HashMap.keys, List.length_map]

/-- One operation answers as the finite map does. -/
theorem Represents.answers {m : HashMap V} {f : FMap V} (h : Represents m f) {op : Op V}
    (hop : op.ShortKey) : op.Answers f (m.exec op).2 := by
  cases op with
  | put key value | remove key | clear => rfl
  | get key => exact congrArg Answer.value (h.get hop)
  | hasKey key => exact congrArg (fun o => Answer.flag (Option.isSome o)) (h.get hop)
  | detach key => exact congrArg Answer.value ((detach_fst m key).trans (h.get hop))
  | getSize =>
      exact congrArg Answer.size h.card_keys
  | keys => exact ⟨m.keys, rfl, h.keys⟩
  | values =>
      refine ⟨m.values, rfl, ?_⟩
      rw [← h.entries, Multiset.map_coe, List.map_map]
      rfl
  | iterate =>
      refine ⟨m.entries, ?_, h.entries⟩
      change Answer.entries (iterateFrom record m.entries []) = _
      rw [iterateFrom_record, List.nil_append]

/-- A run from a represented state answers as the finite map does. -/
theorem Represents.agrees {m : HashMap V} {f : FMap V} (h : Represents m f)
    {ops : List (Op V)} (hops : ∀ op ∈ ops, op.ShortKey) (hfew : FewKeys f ops) :
    ∃ answers, m.run ops = some answers ∧ Agrees f ops answers := by
  induction ops generalizing m f with
  | nil => exact ⟨[], rfl, trivial⟩
  | cons op ops ih =>
      obtain ⟨hop, hops⟩ := List.forall_mem_cons.mp hops
      have hnext := h.exec hop
      have hsize : FitsInt (m.exec op).1.size := by
        rw [hnext.card_keys, fitsInt_natCast]
        exact hfew [op] (List.prefix_append [op] ops)
      have hfew' : FewKeys (op.apply f) ops := fun ops' hprefix =>
        hfew (op :: ops') (List.cons_prefix_cons.mpr ⟨rfl, hprefix⟩)
      obtain ⟨answers, hrun, hagrees⟩ := ih hnext hops hfew'
      refine ⟨(m.exec op).2 :: answers, ?_, h.answers hop, hagrees⟩
      rw [run, if_pos hsize, hrun, Option.map_some]

/-- **Refinement.** For every requested capacity and every sequence of operations on keys
shorter than `MAX_KEY_LEN`, with at most `INT_MAX` keys at a time, the map answers as a finite
map that starts empty. -/
theorem run_agrees (capacity : ℤ) (ops : List (Op V)) (hops : ∀ op ∈ ops, op.ShortKey)
    (hfew : FewKeys ∅ ops) :
    ∃ answers, (new capacity : HashMap V).run ops = some answers ∧ Agrees ∅ ops answers :=
  (represents_new capacity).agrees hops hfew

/-- A run with a collision, a replacement and a removal. -/
theorem run_agrees_sample :
    (∀ op ∈ ([.put [0x61] 1, .put [0x71] 2, .put [0x61] 3, .remove [0x71], .get [0x61],
      .getSize] : List (Op ℕ)), op.ShortKey) ∧
    ∃ answers, (new 16 : HashMap ℕ).run
        [.put [0x61] 1, .put [0x71] 2, .put [0x61] 3, .remove [0x71], .get [0x61], .getSize] = some answers ∧
      Agrees ∅ [.put [0x61] 1, .put [0x71] 2, .put [0x61] 3, .remove [0x71], .get [0x61], .getSize] answers :=
  ⟨by decide, run_agrees 16 _ (by decide) (fewKeys_of_length (by decide))⟩

end HashMap
