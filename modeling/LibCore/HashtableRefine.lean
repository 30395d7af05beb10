import LibCore.Hashtable

/-!
# `Hashtable` Refines a Finite Map

The keys of a class whose `equals` is an equivalence are the keys of a finite map up to that
equivalence. `Represents` ties a table to the finite map it stands for; every operation keeps it
and answers as the finite map does, as long as the table fits its `int` fields (`Fits`): the
capacity of a new table must not be truncated to zero before it is divided by, and neither the
doubled capacity nor the count may pass `INT_MAX`.

## Main results

* `Represents.rehash`: relinking every chain keeps the finite map.
* `drain_iterator`: an iterator over an unmodified table visits every entry exactly once.
* `run_refines`: the answers of a whole run are those of a finite map.
-/

/-- A class of keys whose `equals` is an equivalence that `hashCode` respects. -/
structure LawfulKeys (K : Type) extends KeyClass K where
  refl : ∀ a, equals a a = true
  symm : ∀ a b, equals a b = true → equals b a = true
  trans : ∀ a b c, equals a b = true → equals b c = true → equals a c = true
  hashCode_eq : ∀ a b, equals a b = true → hashCode a = hashCode b

namespace LawfulKeys

variable {K V : Type} (cls : LawfulKeys K)

/-- Keys up to `equals`. -/
def setoid : Setoid K where
  r a b := cls.equals a b = true
  iseqv := ⟨cls.refl, fun h => cls.symm _ _ h, fun h h' => cls.trans _ _ _ h h'⟩

/-- The keys of the finite map. -/
def Key : Type := Quotient cls.setoid

instance : DecidableEq cls.Key :=
  @Quotient.decidableEq K cls.setoid fun a b => inferInstanceAs (Decidable (cls.equals a b = true))

/-- A key up to `equals`. -/
def key (k : K) : cls.Key := Quotient.mk cls.setoid k

theorem key_eq_iff {a b : K} : cls.key a = cls.key b ↔ cls.equals a b = true :=
  Quotient.eq (r := cls.setoid)

/-- The finite maps that tables of these keys stand for. -/
abbrev FMap (V : Type) := Finmap fun _ : cls.Key => V

/-- An entry as an entry of the finite map. -/
def pair (e : HashtableEntry K V) : cls.Key × V := (cls.key e.1.1, e.2)

theorem hash_eq {a b : K} (h : cls.key a = cls.key b) : cls.hash a = cls.hash b := by
  rw [KeyClass.hash, KeyClass.hash, cls.hashCode_eq a b (cls.key_eq_iff.mp h)]

/-- At an entry that keeps the hash of its key, the test is the equality of the finite map. -/
theorem test_iff {k : K} {node : K × ℕ} (h : node.2 = cls.hash node.1) :
    cls.test k node = true ↔ cls.key node.1 = cls.key k := by
  rw [KeyClass.test, Bool.and_eq_true, beq_iff_eq, ← cls.key_eq_iff]
  exact ⟨And.right, fun hk => ⟨h.trans (cls.hash_eq hk), hk⟩⟩

end LawfulKeys

namespace Hashtable

variable {K V : Type} {cls : LawfulKeys K}

/-- The table `t` stands for the finite map `f`. -/
structure Represents (cls : LawfulKeys K) (t : Hashtable K V) (f : cls.FMap V) : Prop where
  capacity_le : t.capacity ≤ intMax
  length : t.capacity = t.table.length
  placed : ∀ j c, t.table[j]? = some c → ∀ e ∈ c, e.1.2 % t.table.length = j
  hashed : ∀ e ∈ t.table.flatten, e.1.2 = cls.hash e.1.1
  lists : Chain.Lists (t.table.flatten.map cls.pair) f
  count : t.count = t.table.flatten.length
  count_le : t.count ≤ intMax

/-! ### Sizes -/

/-- The capacity is the length of the array, and an `int`. -/
structure Sized (t : Hashtable K V) : Prop where
  capacity_le : t.capacity ≤ intMax
  length : t.capacity = t.table.length

namespace Sized

variable {t : Hashtable K V}

theorem sizeOfInt_capacity (h : Sized t) : sizeOfInt t.capacity = t.table.length := by
  rw [h.length, sizeOfInt_natCast (h.length ▸ h.capacity_le)]

theorem buckets? (h : Sized t) : t.buckets? = some t.table := by
  rw [Hashtable.buckets?, h.sizeOfInt_capacity, if_pos le_rfl, List.take_length]

end Sized

namespace Represents

variable {t : Hashtable K V} {f : cls.FMap V}

theorem sized (h : Represents cls t f) : Sized t := ⟨h.capacity_le, h.length⟩

theorem sizeOfInt_capacity (h : Represents cls t f) : sizeOfInt t.capacity = t.table.length :=
  h.sized.sizeOfInt_capacity

theorem buckets? (h : Represents cls t f) : t.buckets? = some t.table := h.sized.buckets?

theorem index? (h : Represents cls t f) (hcap : t.capacity ≠ 0) (hash : ℕ) :
    t.index? hash = some (hash % t.table.length) ∧ hash % t.table.length < t.table.length := by
  have hpos : t.table.length ≠ 0 := fun h0 => hcap (by rw [h.length, h0]; rfl)
  rw [Hashtable.index?, h.sizeOfInt_capacity, if_neg hpos]
  exact ⟨rfl, Nat.mod_lt _ (Nat.pos_of_ne_zero hpos)⟩

theorem size (h : Represents cls t f) : t.size = f.keys.card := by
  rw [Hashtable.size, h.count, sizeOfInt_natCast (h.count ▸ h.count_le), h.lists.card_keys,
    List.length_map]

/-! ### Buckets -/

/-- The chain of a hash. -/
theorem chain (h : Represents cls t f) (hcap : t.capacity ≠ 0) (hash : ℕ) :
    ∃ c, t.table[hash % t.table.length]? = some c ∧
      t.table.flatten.Perm (c ++ (t.table.eraseIdx (hash % t.table.length)).flatten) := by
  obtain ⟨-, hlt⟩ := h.index? hcap hash
  exact ⟨_, List.getElem?_eq_getElem hlt, Chain.flatten_perm_getElem hlt⟩

theorem mem_flatten {j : ℕ} {c : List (HashtableEntry K V)} (hc : t.table[j]? = some c)
    {e : HashtableEntry K V} (he : e ∈ c) : e ∈ t.table.flatten :=
  List.mem_flatten.mpr ⟨c, List.mem_of_getElem? hc, he⟩

/-- The test at an entry of the table. -/
theorem test_iff (h : Represents cls t f) {k : K} {e : HashtableEntry K V}
    (he : e ∈ t.table.flatten) : cls.test k e.1 = true ↔ cls.key e.1.1 = cls.key k :=
  cls.test_iff (h.hashed e he)

/-- An entry lies in the bucket of every key that is equal to its own. -/
theorem mem_chain (h : Represents cls t f) {k : K} {c : List (HashtableEntry K V)}
    (hc : t.table[cls.hash k % t.table.length]? = some c) {e : HashtableEntry K V}
    (he : e ∈ t.table.flatten) (hk : cls.key e.1.1 = cls.key k) : e ∈ c := by
  obtain ⟨d, hd, hed⟩ := List.mem_flatten.mp he
  obtain ⟨j, hj⟩ := List.mem_iff_getElem?.mp hd
  have hidx := h.placed j d hj e hed
  rw [h.hashed e he, cls.hash_eq hk] at hidx
  rw [hidx, hj] at hc
  exact Option.some.inj hc ▸ hed

/-- **A lookup reads the finite map.** -/
theorem find? (h : Represents cls t f) {k : K} {c : List (HashtableEntry K V)}
    (hc : t.table[cls.hash k % t.table.length]? = some c) :
    Chain.find? (cls.test k) c = f.lookup (cls.key k) := by
  have htest : ∀ e ∈ c, cls.test k e.1 = (cls.key e.1.1 == cls.key k) := by
    intro e he
    rw [Bool.eq_iff_iff, beq_iff_eq, h.test_iff (mem_flatten hc he)]
  have hperm := (Chain.flatten_perm_getElem (List.getElem?_eq_some_iff.mp hc).1).map cls.pair
  rw [(List.getElem?_eq_some_iff.mp hc).2, List.map_append] at hperm
  have hnodup : ((c.map cls.pair).map Prod.fst).Nodup := by
    have hall := (hperm.map Prod.fst).nodup_iff.mp h.lists.nodup
    rw [List.map_append] at hall
    exact (List.nodup_append.mp hall).1
  rw [Chain.find?_congr (q := fun node => cls.key node.1 == cls.key k) htest,
    ← Chain.find?_map (fun node : K × ℕ => cls.key node.1) (· == cls.key k)]
  ext v
  change Chain.find? (· == cls.key k) (c.map cls.pair) = some v ↔ _
  rw [Chain.find?_eq_some_iff_mem (k := cls.key k) (by simp) hnodup, ← h.lists.mem_iff]
  constructor
  · intro hmem
    obtain ⟨e, he, heq⟩ := List.mem_map.mp hmem
    exact List.mem_map.mpr ⟨e, mem_flatten hc he, heq⟩
  · intro hmem
    obtain ⟨e, he, heq⟩ := List.mem_map.mp hmem
    exact List.mem_map.mpr ⟨e, h.mem_chain hc he (congrArg Prod.fst heq), heq⟩

/-- The table after one bucket has been exchanged. -/
theorem exchange (h : Represents cls t f) {idx : ℕ} (hidx : idx < t.table.length)
    {c : List (HashtableEntry K V)} {f' : cls.FMap V} {count : ℤ} {modCount : UInt64}
    (hnode : ∀ e ∈ c, e.1.2 = cls.hash e.1.1 ∧ e.1.2 % t.table.length = idx)
    (hlists : Chain.Lists ((c ++ (t.table.eraseIdx idx).flatten).map cls.pair) f')
    (hcount : count = (c ++ (t.table.eraseIdx idx).flatten).length) (hle : count ≤ intMax) :
    Represents cls { t with table := t.table.set idx c, count := count, modCount := modCount }
      f' := by
  have hperm := Chain.flatten_set_perm hidx c
  refine ⟨h.capacity_le, by simpa using h.length, fun j d hj e he => ?_, fun e he => ?_,
    hlists.perm (hperm.map cls.pair), by rw [hcount, hperm.length_eq], hle⟩
  · dsimp only at hj ⊢
    rw [List.length_set]
    rw [List.getElem?_set] at hj
    split_ifs at hj with hji
    · obtain rfl := Option.some.inj hj
      exact hji ▸ (hnode e he).2
    · exact h.placed j d hj e he
  · rcases List.mem_append.mp (hperm.mem_iff.mp he) with he | he
    · exact (hnode e he).1
    · obtain ⟨d, hd, hed⟩ := List.mem_flatten.mp he
      exact h.hashed e (List.mem_flatten.mpr ⟨d, List.mem_of_mem_eraseIdx hd, hed⟩)

/-- The entries of a chain keep their hash and their bucket. -/
theorem node (h : Represents cls t f) {idx : ℕ} {c : List (HashtableEntry K V)}
    (hc : t.table[idx]? = some c) :
    ∀ e ∈ c, e.1.2 = cls.hash e.1.1 ∧ e.1.2 % t.table.length = idx :=
  fun e he => ⟨h.hashed e (mem_flatten hc he), h.placed idx c hc e he⟩

/-! ### The operations -/

theorem get (h : Represents cls t f) (hcap : t.capacity ≠ 0) (k : K) :
    t.get cls.toKeyClass (some k) = some (f.lookup (cls.key k)) := by
  obtain ⟨c, hc, -⟩ := h.chain hcap (cls.hash k)
  simp [Hashtable.get, (h.index? hcap _).1, hc, h.find? hc]

theorem containsKey (h : Represents cls t f) (hcap : t.capacity ≠ 0) (k : K) :
    t.containsKey cls.toKeyClass (some k) = some (f.lookup (cls.key k)).isSome := by
  obtain ⟨c, hc, -⟩ := h.chain hcap (cls.hash k)
  simp [Hashtable.containsKey, (h.index? hcap _).1, hc, h.find? hc]

/-- No key of the table is equal to `k` when the chain of `k` has no match. -/
theorem notMem_keys (h : Represents cls t f) {k : K} {c : List (HashtableEntry K V)}
    (hc : t.table[cls.hash k % t.table.length]? = some c)
    (hnone : ∀ e ∈ c, cls.test k e.1 = false) :
    cls.key k ∉ (t.table.flatten.map cls.pair).map Prod.fst := by
  intro hmem
  obtain ⟨p, hp, hkey⟩ := List.mem_map.mp hmem
  obtain ⟨e, he, rfl⟩ := List.mem_map.mp hp
  have hec := h.mem_chain hc he hkey
  have htrue := (h.test_iff (k := k) he).mpr hkey
  exact absurd (htrue.symm.trans (hnone e hec)) (by simp)

/-- `ht_put` without its rehash inserts. -/
theorem insert (h : Represents cls t f) (hcap : t.capacity ≠ 0) {k : K}
    (hcount : f.lookup (cls.key k) = none → t.count < intMax) (v : V) :
    ∃ t', t.insert cls.toKeyClass k v = some (f.lookup (cls.key k), t') ∧
      Represents cls t' (f.insert (cls.key k) v) := by
  obtain ⟨hindex, hlt⟩ := h.index? hcap (cls.hash k)
  obtain ⟨c, hc, hperm⟩ := h.chain hcap (cls.hash k)
  have hfind := h.find? hc
  have hnode := h.node hc
  have hlists := h.lists.perm (hperm.map cls.pair).symm
  have hlen : t.count = (c ++ (t.table.eraseIdx (cls.hash k % t.table.length)).flatten).length := by
    rw [h.count, hperm.length_eq]
  rw [Hashtable.insert]
  simp only [hindex, Option.bind_eq_bind, Option.bind_some, hc]
  cases hr : Chain.replace? (cls.test k) v c with
  | some c' =>
      obtain ⟨c₁, n, w, c₂, rfl, rfl, htest, -⟩ := Chain.replace?_eq_some hr
      have hkey : cls.key n.1 = cls.key k :=
        (h.test_iff (mem_flatten hc (e := (n, w)) (by simp))).mp htest
      refine ⟨_, by rw [hfind], ?_⟩
      refine h.exchange hlt (c := c₁ ++ (n, v) :: c₂) (fun e he => ?_) ?_ ?_ h.count_le
      · rcases List.mem_append.mp he with he | he
        · exact hnode e (by simp [he])
        · rcases List.mem_cons.mp he with rfl | he
          · exact hnode (n, w) (by simp)
          · exact hnode e (by simp [he])
      · -- the entry of the key comes to the front
        have hfront : ∀ x : V, ((c₁ ++ (n, x) :: c₂ ++
            (t.table.eraseIdx (cls.hash k % t.table.length)).flatten).map cls.pair).Perm
            ((cls.key k, x) :: (c₁ ++ c₂ ++
              (t.table.eraseIdx (cls.hash k % t.table.length)).flatten).map cls.pair) := by
          intro x
          rw [← hkey]
          simp [LawfulKeys.pair]
        exact ((hlists.perm (hfront w).symm).replace v).perm (hfront v)
      · rw [hlen]
        simp
  | none =>
      have hnone := Chain.replace?_eq_none_iff.mp hr
      have hlookup : f.lookup (cls.key k) = none := by
        rw [← hfind]
        exact Chain.find?_eq_none_iff.mpr hnone
      have hlt' := hcount hlookup
      have hbmod : Int.bmod (t.count + 1) (2 ^ 32) = t.count + 1 := by
        have hnonneg : 0 ≤ t.count := h.count ▸ Int.natCast_nonneg _
        exact bmod_of_le (by omega) (by omega)
      refine ⟨_, by rw [hlookup], ?_⟩
      refine h.exchange hlt (c := ((k, cls.hash k), v) :: c) (fun e he => ?_) ?_ ?_ ?_
      · rcases List.mem_cons.mp he with rfl | he
        · exact ⟨rfl, rfl⟩
        · exact hnode e he
      · have hkeys := h.notMem_keys hc hnone
        rw [((hperm.map cls.pair).map Prod.fst).mem_iff] at hkeys
        exact hlists.cons hkeys v
      · rw [hbmod, hlen, List.cons_append, List.length_cons]
        push_cast
        rfl
      · rw [hbmod]
        omega

/-- `ht_remove` erases. -/
theorem remove (h : Represents cls t f) (hcap : t.capacity ≠ 0) (k : K) :
    ∃ t', t.remove cls.toKeyClass (some k) = some (f.lookup (cls.key k), t') ∧
      Represents cls t' (f.erase (cls.key k)) := by
  obtain ⟨hindex, hlt⟩ := h.index? hcap (cls.hash k)
  obtain ⟨c, hc, hperm⟩ := h.chain hcap (cls.hash k)
  have hfind := h.find? hc
  have hnode := h.node hc
  have hlists := h.lists.perm (hperm.map cls.pair).symm
  have hlen : t.count = (c ++ (t.table.eraseIdx (cls.hash k % t.table.length)).flatten).length := by
    rw [h.count, hperm.length_eq]
  rw [Hashtable.remove]
  simp only [hindex, Option.bind_eq_bind, Option.bind_some, hc]
  cases hr : Chain.unlink? (cls.test k) c with
  | some r =>
      obtain ⟨w, c'⟩ := r
      have hfst : Chain.find? (cls.test k) c = some w := by
        rw [← Chain.unlink?_map_fst, hr]
        rfl
      obtain ⟨c₁, n, c₂, rfl, rfl, htest, -⟩ := Chain.unlink?_eq_some hr
      have hkey : cls.key n.1 = cls.key k :=
        (h.test_iff (mem_flatten hc (e := (n, w)) (by simp))).mp htest
      have hbmod : Int.bmod (t.count - 1) (2 ^ 32) = t.count - 1 := by
        have hpos : 1 ≤ t.count := by
          rw [hlen, List.length_append, List.length_append, List.length_cons]
          omega
        exact bmod_of_le (by omega) (by have := h.count_le; omega)
      refine ⟨_, by rw [← hfind, hfst], ?_⟩
      refine h.exchange hlt (c := c₁ ++ c₂) (fun e he => ?_) ?_ ?_ ?_
      · rcases List.mem_append.mp he with he | he
        · exact hnode e (by simp [he])
        · exact hnode e (by simp [he])
      · have hmiddle : (c₁ ++ (n, w) ::
            (c₂ ++ (t.table.eraseIdx (cls.hash k % t.table.length)).flatten)).Perm
            ((n, w) :: (c₁ ++ (c₂ ++ (t.table.eraseIdx (cls.hash k % t.table.length)).flatten))) :=
          List.perm_middle
        have hfront := hmiddle.map cls.pair
        rw [← hkey]
        refine Chain.Lists.unlink (w := w) (hlists.perm ?_)
        simpa [LawfulKeys.pair] using hfront.symm
      · rw [hbmod, hlen]
        simp only [List.length_append, List.length_cons]
        omega
      · rw [hbmod]
        have := h.count_le
        omega
  | none =>
      have hnone := Chain.unlink?_eq_none_iff.mp hr
      have hlookup : f.lookup (cls.key k) = none := by
        rw [← hfind]
        exact Chain.find?_eq_none_iff.mpr hnone
      refine ⟨t, by rw [hlookup], ?_⟩
      rw [h.lists.erase_of_notMem (h.notMem_keys hc hnone)]
      exact h

end Represents

/-! ### Rehashing -/

/-- Every entry of a table with `n` buckets lies in the bucket of its hash. -/
def Placed (n : ℕ) (table : List (List (HashtableEntry K V))) : Prop :=
  ∀ j c, table[j]? = some c → ∀ e ∈ c, e.1.2 % n = j

theorem placed_replicate (n : ℕ) :
    Placed n (List.replicate n [] : List (List (HashtableEntry K V))) := by
  intro j c hj e he
  obtain rfl := List.eq_of_mem_replicate (List.mem_of_getElem? hj)
  exact absurd he List.not_mem_nil

theorem placed_relink {n : ℕ} {table : List (List (HashtableEntry K V))} (h : Placed n table)
    (e : HashtableEntry K V) : Placed n (relink n table e) := by
  intro j c hj e' he'
  rw [relink, List.getElem?_modify] at hj
  obtain ⟨d, hd, rfl⟩ := Option.map_eq_some_iff.mp hj
  split_ifs at he' with hidx
  · rcases List.mem_cons.mp he' with rfl | he'
    · exact hidx
    · exact h j d hd e' he'
  · exact h j d hd e' he'

/-- **The loop of `rehash`** loses and duplicates no entry. -/
theorem foldl_relink {n : ℕ} (hn : 0 < n) (es : List (HashtableEntry K V))
    {table : List (List (HashtableEntry K V))} (hlen : table.length = n) (hplaced : Placed n table) :
    (es.foldl (relink n) table).length = n ∧ Placed n (es.foldl (relink n) table) ∧
      (es.foldl (relink n) table).flatten.Perm (es ++ table.flatten) := by
  induction es generalizing table with
  | nil => exact ⟨hlen, hplaced, .refl _⟩
  | cons e es ih =>
      have hlt : e.1.2 % n < table.length := by
        rw [hlen]
        exact Nat.mod_lt _ hn
      have hlen₁ : (relink n table e).length = n := by rw [relink, List.length_modify, hlen]
      obtain ⟨hlen', hplaced', hperm⟩ := ih hlen₁ (placed_relink hplaced e)
      refine ⟨hlen', hplaced', hperm.trans ?_⟩
      have hpush := (Chain.flatten_modify_cons_perm hlt e).append_left es
      exact hpush.trans List.perm_middle

/-- What `rehash` leaves, if the new capacity is an `int`. -/
theorem Sized.rehash {t : Hashtable K V} (h : Sized t) (hfit : 2 * t.capacity + 1 ≤ intMax) :
    ∃ t', t.rehash = some t' ∧ t'.capacity = (t.table.length * 2 + 1 : ℕ) ∧
      t'.table = t.table.flatten.foldl (relink (t.table.length * 2 + 1))
        (List.replicate (t.table.length * 2 + 1) []) ∧
      t'.count = t.count ∧ t'.modCount = t.modCount + 1 ∧
      ((t.table.length * 2 + 1 : ℕ) : ℤ) ≤ intMax := by
  have hlength := h.length
  have hfit' : (t.table.length : ℤ) * 2 + 1 ≤ 2147483647 := by
    rw [intMax, hlength] at hfit
    omega
  have hnew : (sizeOfInt t.capacity * 2 + 1) % 2 ^ 64 = t.table.length * 2 + 1 := by
    rw [h.sizeOfInt_capacity]
    omega
  have hle : ((t.table.length * 2 + 1 : ℕ) : ℤ) ≤ intMax := by
    rw [intMax]
    omega
  have hint : intOfSize (t.table.length * 2 + 1) = (t.table.length * 2 + 1 : ℕ) :=
    intOfSize_of_le hle
  rw [Hashtable.rehash, hnew]
  simp only [calloc, if_pos (show (t.table.length * 2 + 1) * 8 < 2 ^ 64 by omega), h.buckets?,
    Option.bind_eq_bind, Option.bind_some]
  refine ⟨_, rfl, ?_, rfl, rfl, rfl, hle⟩
  dsimp only
  exact hint

namespace Represents

variable {t : Hashtable K V} {f : cls.FMap V}

/-- **`rehash` keeps the finite map.** -/
theorem rehash (h : Represents cls t f) (hfit : 2 * t.capacity + 1 ≤ intMax) :
    ∃ t', t.rehash = some t' ∧ Represents cls t' f ∧ t'.capacity ≠ 0 ∧ t'.count = t.count := by
  obtain ⟨t', hrehash, hcapacity, htable, hcount, -, hfit'⟩ := h.sized.rehash hfit
  obtain ⟨hlen, hplaced, hperm⟩ := foldl_relink (Nat.succ_pos (t.table.length * 2))
    t.table.flatten (List.length_replicate (a := [])) (placed_replicate _)
  have hflat : (List.replicate (t.table.length * 2 + 1)
      ([] : List (HashtableEntry K V))).flatten = [] := by simp
  rw [hflat, List.append_nil] at hperm
  rw [← htable] at hlen hplaced hperm
  refine ⟨t', hrehash, ⟨by rwa [hcapacity], by rw [hcapacity, hlen], by rwa [hlen], ?_,
    h.lists.perm (hperm.map cls.pair), ?_, hcount ▸ h.count_le⟩, ?_, hcount⟩
  · exact fun e he => h.hashed e (hperm.mem_iff.mp he)
  · rw [hcount, h.count, hperm.length_eq]
  · rw [hcapacity]
    omega

/-- `ht_clear` empties. -/
theorem clear (h : Represents cls t f) :
    ∃ t', t.clear = some t' ∧ Represents cls t' (∅ : cls.FMap V) := by
  have hempty : (t.table.map fun _ => ([] : List (HashtableEntry K V))).flatten = [] := by simp
  rw [Hashtable.clear, h.buckets?]
  simp only [Option.bind_eq_bind, Option.bind_some, List.drop_length, List.append_nil]
  refine ⟨_, rfl, h.capacity_le, by simpa using h.length, ?_, ?_, ?_, ?_, ?_⟩
  · intro j c hj e he
    obtain ⟨d, -, rfl⟩ := List.mem_map.mp (List.mem_of_getElem? hj)
    exact absurd he List.not_mem_nil
  · intro e he
    rw [hempty] at he
    exact absurd he List.not_mem_nil
  · rw [hempty]
    exact Chain.Lists.nil
  · rw [hempty]
    rfl
  · show 0 ≤ intMax
    decide

end Represents

/-- The capacity a new table asks for. -/
def requested (initialCapacity : ℕ) : ℕ := if initialCapacity = 0 then 11 else initialCapacity

/-- A new table stands for the empty map if its capacity is not truncated to a negative one. -/
theorem represents_new {initialCapacity : ℕ} (h : 0 ≤ intOfSize (requested initialCapacity))
    (loadFactor : ℤ → ℤ) :
    Represents cls (Hashtable.new initialCapacity loadFactor : Hashtable K V) ∅ := by
  obtain ⟨n, hn⟩ := Int.eq_ofNat_of_zero_le h
  have hle : (n : ℤ) ≤ intMax := hn ▸ intOfSize_le _
  have htable : (calloc n : Option (List (List (HashtableEntry K V)))) =
      some (List.replicate n []) := by
    rw [intMax] at hle
    rw [calloc, if_pos (by omega)]
  have hsize := sizeOfInt_natCast hle
  have hnew : (Hashtable.new initialCapacity loadFactor : Hashtable K V) =
      { table := List.replicate n [], capacity := n, count := 0, threshold := loadFactor n,
        loadFactor := loadFactor, modCount := 0 } := by
    rw [requested] at hn
    simp only [Hashtable.new, hn, hsize, htable, Option.getD_some]
  rw [hnew]
  refine ⟨hle, by simp, ?_, ?_, ?_, by simp, show 0 ≤ intMax by decide⟩
  · have hplaced := placed_replicate (K := K) (V := V) n
    rw [Placed] at hplaced
    simpa using hplaced
  · simp
  · simpa using Chain.Lists.nil

/-! ### The iterator -/

/-- What an iterator at an entry still has ahead: the rest of the chain, then the buckets behind. -/
inductive Ahead (t : Hashtable K V) : Option (ℕ × ℕ) → ℕ → List (HashtableEntry K V) → Prop
  | done (index : ℕ) : Ahead t none index []
  | entry {bucket place : ℕ} {c : List (HashtableEntry K V)} (hc : t.table[bucket]? = some c)
      (hplace : place < c.length) :
      Ahead t (some (bucket, place)) (bucket + 1)
        (c.drop place ++ (t.table.drop (bucket + 1)).flatten)

/-- The search for the next bucket skips empty ones only. -/
theorem scan_ahead (t : Hashtable K V) (fuel index : ℕ) (h : index + fuel = t.table.length) :
    ∃ entry index', t.scan fuel index = some (entry, index') ∧
      Ahead t entry index' (t.table.drop index).flatten := by
  induction fuel generalizing index with
  | zero =>
      have hnil : t.table.drop index = [] := List.drop_of_length_le (by omega)
      refine ⟨none, index, rfl, ?_⟩
      rw [hnil]
      exact .done index
  | succ fuel ih =>
      have hlt : index < t.table.length := by omega
      have hc : t.table[index]? = some t.table[index] := List.getElem?_eq_getElem hlt
      rw [scan, hc, List.drop_eq_getElem_cons hlt, List.flatten_cons]
      simp only [Option.bind_eq_bind, Option.bind_some]
      cases hchain : t.table[index] with
      | nil => exact ih (index + 1) (by omega)
      | cons e c =>
          refine ⟨_, _, rfl, ?_⟩
          rw [hchain] at hc
          exact .entry hc (Nat.succ_pos _)

theorem scanFrom_ahead {t : Hashtable K V} (h : sizeOfInt t.capacity = t.table.length)
    {index : ℕ} (hindex : index ≤ t.table.length) :
    ∃ entry index', t.scanFrom index = some (entry, index') ∧
      Ahead t entry index' (t.table.drop index).flatten :=
  t.scan_ahead _ index (by rw [h]; omega)

/-- What an iterator hands out of an entry. -/
def out (e : HashtableEntry K V) : K × V := (e.1.1, e.2)

/-- One round of the loop over an iterator hands out the first entry ahead. -/
theorem next_ahead {t : Hashtable K V} (h : sizeOfInt t.capacity = t.table.length)
    {it : HashtableIterator} (hmod : it.expectedModCount = t.modCount)
    {e : HashtableEntry K V} {rest : List (HashtableEntry K V)}
    (hahead : Ahead t it.currentEntry it.currentBucketIndex (e :: rest)) :
    ∃ it', it.next t = some (some (out e), it') ∧ it'.expectedModCount = t.modCount ∧
      Ahead t it'.currentEntry it'.currentBucketIndex rest := by
  obtain ⟨index, current, expected⟩ := it
  obtain rfl : expected = t.modCount := hmod
  generalize hall : e :: rest = all at hahead
  cases hahead with
  | done => simp at hall
  | @entry bucket place c hc hplace =>
      have hbucket : bucket < t.table.length := (List.getElem?_eq_some_iff.mp hc).1
      rw [List.drop_eq_getElem_cons hplace, List.cons_append, List.cons.injEq] at hall
      obtain ⟨rfl, rfl⟩ := hall
      rw [HashtableIterator.next, if_neg (by simp)]
      simp only [hc, List.getElem?_eq_getElem hplace, Option.bind_eq_bind, Option.bind_some]
      by_cases hnext : place + 1 < c.length
      · rw [if_pos hnext]
        exact ⟨_, rfl, rfl, .entry hc hnext⟩
      · rw [if_neg hnext]
        obtain ⟨entry, index', hscan, hahead⟩ := scanFrom_ahead h (Nat.succ_le_of_lt hbucket)
        have hnil : c.drop (place + 1) = [] := List.drop_of_length_le (by omega)
        rw [hscan, hnil, List.nil_append]
        exact ⟨_, rfl, rfl, hahead⟩

theorem Ahead.hasNext {t : Hashtable K V} {it : HashtableIterator}
    {rest : List (HashtableEntry K V)}
    (h : Ahead t it.currentEntry it.currentBucketIndex rest) :
    it.hasNext = decide (0 < rest.length) := by
  obtain ⟨index, current, expected⟩ := it
  cases h with
  | done => rfl
  | entry hc hplace =>
      simp [HashtableIterator.hasNext]
      omega

theorem drain_ahead {t : Hashtable K V} (h : sizeOfInt t.capacity = t.table.length)
    (rounds : ℕ) {it : HashtableIterator} (hmod : it.expectedModCount = t.modCount)
    {rest : List (HashtableEntry K V)}
    (hahead : Ahead t it.currentEntry it.currentBucketIndex rest) :
    ∃ it', HashtableIterator.drain t rounds it = some ((rest.take rounds).map out, it') ∧
      it'.hasNext = decide (rounds < rest.length) := by
  induction rounds generalizing it rest with
  | zero => exact ⟨it, by simp [HashtableIterator.drain], hahead.hasNext⟩
  | succ rounds ih =>
      rw [HashtableIterator.drain, hahead.hasNext]
      cases rest with
      | nil => exact ⟨it, by simp, by simp [hahead.hasNext]⟩
      | cons e rest =>
          obtain ⟨it₁, hnext, hmod₁, hahead₁⟩ := next_ahead h hmod hahead
          obtain ⟨it₂, hdrain, hhas⟩ := ih hmod₁ hahead₁
          refine ⟨it₂, ?_, by simpa using hhas⟩
          simp [hnext, hdrain]

/-- **An iterator over an unmodified table** visits every entry exactly once, in as many rounds as
there are entries. -/
theorem drain_iterator {t : Hashtable K V} (h : sizeOfInt t.capacity = t.table.length)
    (rounds : ℕ) :
    ∃ it it', t.iterator = some it ∧
      HashtableIterator.drain t rounds it = some ((t.table.flatten.take rounds).map out, it') ∧
      it'.hasNext = decide (rounds < t.table.flatten.length) := by
  obtain ⟨entry, index, hscan, hahead⟩ := scanFrom_ahead h (Nat.zero_le _)
  rw [List.drop_zero] at hahead
  have hmod : (⟨index, entry, t.modCount⟩ : HashtableIterator).expectedModCount = t.modCount := rfl
  obtain ⟨it', hdrain, hhas⟩ := drain_ahead h rounds hmod hahead
  exact ⟨_, it', by simp [iterator, hscan], hdrain, hhas⟩

/-! ### Runs -/

/-- The operations of the function table; `iterate` is a loop over a new iterator that stops after
some rounds. -/
inductive Op (K V : Type)
  | put (key : Option K) (value : Option V)
  | get (key : Option K)
  | containsKey (key : Option K)
  | remove (key : Option K)
  | clear
  | keys
  | values
  | size
  | isEmpty
  | iterate (rounds : ℕ)

/-- What an operation hands back. -/
inductive Answer (K V : Type)
  | none
  | value (v : Option V)
  | flag (b : Bool)
  | size (n : ℕ)
  | keys (ks : List K)
  | values (vs : List V)
  | entries (es : List (K × V)) (more : Bool)

/-- One operation. -/
def exec (cls : KeyClass K) (t : Hashtable K V) : Op K V → Option (Hashtable K V × Answer K V)
  | .put key value => do
      let (old, t) ← t.put cls key value
      some (t, .value old)
  | .get key => do
      let v ← t.get cls key
      some (t, .value v)
  | .containsKey key => do
      let b ← t.containsKey cls key
      some (t, .flag b)
  | .remove key => do
      let (old, t) ← t.remove cls key
      some (t, .value old)
  | .clear => do
      let t ← t.clear
      some (t, .none)
  | .keys => do
      let ks ← t.keys
      some (t, .keys ks)
  | .values => do
      let vs ← t.values
      some (t, .values vs)
  | .size => some (t, .size t.size)
  | .isEmpty => some (t, .flag t.isEmpty)
  | .iterate rounds => do
      let it ← t.iterator
      let (es, it) ← it.drain t rounds
      some (t, .entries es it.hasNext)

/-- A run of operations: the answers in order, unless one of them faults. -/
def run (cls : KeyClass K) : Hashtable K V → List (Op K V) → Option (List (Answer K V))
  | _, [] => some []
  | t, op :: ops => do
      let (t, a) ← t.exec cls op
      let as ← run cls t ops
      some (a :: as)

/-- The table after a run. -/
def after (cls : KeyClass K) : Hashtable K V → List (Op K V) → Option (Hashtable K V)
  | t, [] => some t
  | t, op :: ops => do
      let (t, _) ← t.exec cls op
      after cls t ops

/-- What an operation does to a finite map. `NULL` keys and values are ignored. -/
def Op.apply (cls : LawfulKeys K) (f : cls.FMap V) : Op K V → cls.FMap V
  | .put (some key) (some value) => f.insert (cls.key key) value
  | .remove (some key) => f.erase (cls.key key)
  | .clear => ∅
  | _ => f

/-- What an operation on a finite map answers. The traversals promise no order: each lists every
entry exactly once. -/
def Op.Answers (cls : LawfulKeys K) (f : cls.FMap V) : Op K V → Answer K V → Prop
  | .put (some key) (some _), a => a = .value (f.lookup (cls.key key))
  | .put _ _, a => a = .value none
  | .get (some key), a | .remove (some key), a => a = .value (f.lookup (cls.key key))
  | .get none, a | .remove none, a => a = .value none
  | .containsKey (some key), a => a = .flag (f.lookup (cls.key key)).isSome
  | .containsKey none, a => a = .flag false
  | .clear, a => a = .none
  | .size, a => a = .size f.keys.card
  | .isEmpty, a => a = .flag (f.keys.card == 0)
  | .keys, a => ∃ ks : List K, a = .keys ks ∧ ((ks.map cls.key : List _) : Multiset _) = f.keys.val
  | .values, a => ∃ vs : List V, a = .values vs ∧ (vs : Multiset V) = f.entries.map Sigma.snd
  | .iterate rounds, a => ∃ es : List (K × V),
      a = .entries (es.take rounds) (decide (rounds < es.length)) ∧
        ((es.map fun e => ⟨cls.key e.1, e.2⟩ : List ((_ : cls.Key) × V)) : Multiset _) = f.entries

/-- The answers of a run are those of a finite map from state `f` on. -/
def Agrees (cls : LawfulKeys K) : cls.FMap V → List (Op K V) → List (Answer K V) → Prop
  | _, [], [] => True
  | f, op :: ops, a :: as => op.Answers cls f a ∧ Agrees cls (op.apply cls f) ops as
  | _, _, _ => False

/-- The table fits its `int` fields: it has a bucket when one is asked for, and a `put` passes
`INT_MAX` neither with a doubled capacity nor with the count of its entries. -/
def Op.Fits (cls : KeyClass K) (t : Hashtable K V) : Op K V → Prop
  | .put (some key) (some _) =>
      (if t.count ≥ t.threshold then 2 * t.capacity + 1 ≤ intMax else t.capacity ≠ 0) ∧
        (t.containsKey cls (some key) ≠ some true → t.count < intMax)
  | .get (some _) | .containsKey (some _) | .remove (some _) => t.capacity ≠ 0
  | _ => True

instance (cls : KeyClass K) (t : Hashtable K V) : DecidablePred (Op.Fits cls t)
  | .put (some key) (some _) => by
      unfold Op.Fits
      infer_instance
  | .put none _ | .put (some _) none | .get none | .containsKey none | .remove none | .clear
  | .keys | .values | .size | .isEmpty | .iterate _ => inferInstanceAs (Decidable True)
  | .get (some _) | .containsKey (some _) | .remove (some _) =>
      inferInstanceAs (Decidable (t.capacity ≠ 0))

/-- Every operation of a run fits the table it is called on. -/
def FitsRun (cls : KeyClass K) : Hashtable K V → List (Op K V) → Prop
  | _, [] => True
  | t, op :: ops => op.Fits cls t ∧ ∀ r ∈ t.exec cls op, FitsRun cls r.1 ops

instance FitsRun.decidable (cls : KeyClass K) :
    (t : Hashtable K V) → DecidablePred (FitsRun cls t)
  | _, [] => inferInstanceAs (Decidable True)
  | t, op :: ops =>
      have : DecidablePred fun r : Hashtable K V × Answer K V => FitsRun cls r.1 ops :=
        fun r => FitsRun.decidable cls r.1 ops
      inferInstanceAs (Decidable (op.Fits cls t ∧ ∀ r ∈ t.exec cls op, FitsRun cls r.1 ops))

namespace Represents

variable {t : Hashtable K V} {f : cls.FMap V}

/-- `ht_put` inserts. -/
theorem put (h : Represents cls t f) {k : K} {v : V}
    (hfits : (Op.put (some k) (some v)).Fits cls.toKeyClass t) :
    ∃ t', t.put cls.toKeyClass (some k) (some v) = some (f.lookup (cls.key k), t') ∧
      Represents cls t' (f.insert (cls.key k) v) := by
  obtain ⟨hcap, hcount⟩ := hfits
  have hlookup : f.lookup (cls.key k) = none → t.count < intMax := by
    intro hnone
    refine hcount fun hcontains => ?_
    by_cases h0 : t.capacity = 0
    · simp [Hashtable.containsKey, Hashtable.index?, h0, sizeOfInt] at hcontains
    · rw [h.containsKey h0, hnone] at hcontains
      simp at hcontains
  rw [Hashtable.put]
  split_ifs at hcap ⊢ with hthreshold
  · obtain ⟨t', hrehash, h', hcap', hcount'⟩ := h.rehash hcap
    rw [hrehash]
    exact h'.insert hcap' (fun hnone => hcount' ▸ hlookup hnone) v
  · exact h.insert hcap hlookup v

/-- **One operation** keeps the representation and answers as the finite map does. -/
theorem exec (h : Represents cls t f) {op : Op K V} (hfits : op.Fits cls.toKeyClass t) :
    ∃ t' a, t.exec cls.toKeyClass op = some (t', a) ∧ op.Answers cls f a ∧
      Represents cls t' (op.apply cls f) := by
  cases op with
  | put key value =>
      match key, value with
      | some k, some v =>
          obtain ⟨t', hput, h'⟩ := h.put hfits
          exact ⟨t', _, by simp [Hashtable.exec, hput], rfl, h'⟩
      | none, _ => exact ⟨t, _, rfl, rfl, h⟩
      | some _, none => exact ⟨t, _, rfl, rfl, h⟩
  | get key =>
      match key with
      | some k => exact ⟨t, _, by simp [Hashtable.exec, h.get hfits], rfl, h⟩
      | none => exact ⟨t, _, rfl, rfl, h⟩
  | containsKey key =>
      match key with
      | some k => exact ⟨t, _, by simp [Hashtable.exec, h.containsKey hfits], rfl, h⟩
      | none => exact ⟨t, _, rfl, rfl, h⟩
  | remove key =>
      match key with
      | some k =>
          obtain ⟨t', hremove, h'⟩ := h.remove hfits k
          exact ⟨t', _, by simp [Hashtable.exec, hremove], rfl, h'⟩
      | none => exact ⟨t, _, rfl, rfl, h⟩
  | clear =>
      obtain ⟨t', hclear, h'⟩ := h.clear
      exact ⟨t', _, by simp [Hashtable.exec, hclear], rfl, h'⟩
  | keys =>
      have hkeys := h.lists.keys
      rw [List.map_map] at hkeys
      refine ⟨t, .keys (t.table.flatten.map fun e => e.1.1), ?_, ⟨_, rfl, ?_⟩, h⟩
      · rw [Hashtable.exec, Hashtable.keys, h.buckets?]
        rfl
      · rw [List.map_map]
        exact hkeys
  | values =>
      have hvalues := h.lists.values
      rw [List.map_map] at hvalues
      refine ⟨t, .values (t.table.flatten.map Prod.snd), ?_, ⟨_, rfl, hvalues⟩, h⟩
      rw [Hashtable.exec, Hashtable.values, h.buckets?]
      rfl
  | size => exact ⟨t, _, rfl, congrArg Answer.size h.size, h⟩
  | isEmpty =>
      refine ⟨t, _, rfl, ?_, h⟩
      show Answer.flag t.isEmpty = _
      rw [Hashtable.isEmpty, h.size]
  | iterate rounds =>
      obtain ⟨it, it', hit, hdrain, hhas⟩ := drain_iterator h.sizeOfInt_capacity rounds
      have hentries := h.lists.entries
      rw [List.map_map] at hentries
      refine ⟨t, .entries ((t.table.flatten.take rounds).map out) it'.hasNext, ?_,
        ⟨t.table.flatten.map out, ?_, ?_⟩, h⟩
      · rw [Hashtable.exec, hit]
        simp only [Option.bind_eq_bind, Option.bind_some, hdrain]
      · rw [hhas, List.map_take, List.length_map]
      · rw [List.map_map]
        exact hentries

theorem run (h : Represents cls t f) {ops : List (Op K V)}
    (hfits : FitsRun cls.toKeyClass t ops) :
    ∃ as, Hashtable.run cls.toKeyClass t ops = some as ∧ Agrees cls f ops as := by
  induction ops generalizing t f with
  | nil => exact ⟨[], rfl, trivial⟩
  | cons op ops ih =>
      obtain ⟨t', a, hexec, hanswer, h'⟩ := h.exec hfits.1
      obtain ⟨as, hrun, hagrees⟩ := ih h' (hfits.2 (t', a) hexec)
      exact ⟨a :: as, by simp [Hashtable.run, hexec, hrun], hanswer, hagrees⟩

/-- The table after a run stands for a finite map. -/
theorem after (h : Represents cls t f) {ops : List (Op K V)}
    (hfits : FitsRun cls.toKeyClass t ops) :
    ∃ t' f', Hashtable.after cls.toKeyClass t ops = some t' ∧ Represents cls t' f' := by
  induction ops generalizing t f with
  | nil => exact ⟨t, f, rfl, h⟩
  | cons op ops ih =>
      obtain ⟨t', a, hexec, -, h'⟩ := h.exec hfits.1
      obtain ⟨t'', f'', hafter, h''⟩ := ih h' (hfits.2 (t', a) hexec)
      exact ⟨t'', f'', by simp [Hashtable.after, hexec, hafter], h''⟩

/-- A table with an entry has a bucket. -/
theorem capacity_ne_zero (h : Represents cls t f) {k : cls.Key} {v : V}
    (hk : f.lookup k = some v) : t.capacity ≠ 0 := by
  intro hcap
  have hnil : t.table = [] := by
    have hlen := h.length
    rw [hcap] at hlen
    exact List.length_eq_zero_iff.mp (by omega)
  have hmem := (h.lists.mem_iff k v).mpr hk
  simp [hnil] at hmem

end Represents

/-- **`Hashtable` refines a finite map** as long as its `int` fields hold: every run on a table
whose capacity is not truncated to a negative one, in which every operation fits, has the answers
of a finite map. -/
theorem run_refines (cls : LawfulKeys K) (initialCapacity : ℕ) (loadFactor : ℤ → ℤ)
    (ops : List (Op K V)) (hcapacity : 0 ≤ intOfSize (requested initialCapacity))
    (hfits : FitsRun cls.toKeyClass (Hashtable.new initialCapacity loadFactor) ops) :
    ∃ as, run cls.toKeyClass (Hashtable.new initialCapacity loadFactor) ops = some as ∧
      Agrees cls ∅ ops as :=
  (represents_new hcapacity loadFactor).run hfits

/-- Numbers as keys. -/
def natKeys : LawfulKeys ℕ where
  equals a b := a == b
  hashCode a := a
  refl a := by simp
  symm a b h := by simpa using (beq_iff_eq.mp h).symm
  trans a b c h h' := by simpa using (beq_iff_eq.mp h).trans (beq_iff_eq.mp h')
  hashCode_eq a b h := by rw [beq_iff_eq.mp h]

/-- A run that rehashes a table of two buckets twice. -/
theorem run_refines_sample :
    let t : Hashtable ℕ ℕ := Hashtable.new 2 fun c => c * 3 / 4
    let ops : List (Op ℕ ℕ) := [.put (some 1) (some 10), .put (some 3) (some 30),
      .put (some 5) (some 50), .put (some 9) (some 90), .put (some 3) (some 31), .get (some 3),
      .remove (some 1), .size, .iterate 9]
    FitsRun natKeys.toKeyClass t ops ∧
      ∃ as, run natKeys.toKeyClass t ops = some as ∧ Agrees natKeys ∅ ops as := by
  intro t ops
  have hfits : FitsRun natKeys.toKeyClass t ops := by decide +kernel
  exact ⟨hfits, run_refines natKeys 2 (fun c => c * 3 / 4) ops (by decide) hfits⟩

/-- A lookup divides by the capacity. -/
theorem get_of_capacity_eq_zero {t : Hashtable K V} (h : t.capacity = 0) (cls : KeyClass K)
    (k : K) : t.get cls (some k) = none := by
  have hzero : sizeOfInt t.capacity = 0 := by rw [h]; rfl
  simp [get, index?, hzero]

/-- A capacity of `2 ^ 32` is truncated to zero, and the first lookup faults. -/
theorem get_divides_by_zero :
    let t : Hashtable ℕ ℕ := Hashtable.new (2 ^ 32) fun c => c * 3 / 4
    ¬ ∃ as, run natKeys.toKeyClass t [.get (some 1)] = some as ∧
      Agrees natKeys ∅ [.get (some 1)] as := by
  intro t
  have hget : t.get natKeys.toKeyClass (some 1) = none := get_of_capacity_eq_zero rfl _ _
  rintro ⟨as, hrun, -⟩
  simp [run, exec, hget] at hrun

end Hashtable
