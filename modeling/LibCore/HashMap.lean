import LibCore.Bytes
import LibCore.Chain

/-!
# The String-Keyed `HashMap`

This module embeds `hashmap.c`: a fixed number of buckets, each a singly linked chain of
nodes, indexed by the djb2 hash of the whole key and searched with
`strncmp(node->key, key, MAX_KEY_LEN)`. Almost every other component keeps its state in
this map.

A value is never NULL here, so `V` stands for the objects and `Option V` for the pointers
the lookups return. The lock is left out: every operation holds it from entry to exit.
The map never rehashes, so `capacity` is the length of the bucket array. `size` is an `int`: that it never
leaves its range is asked of whole runs.

## Main definitions

* `hashStr`, `HashMap.index`: the bucket of a key.
* `HashMap.put`, `get`, `hasKey`, `remove`, `detach`, `clear`, `keys`, `values`,
  `iterate`, `getSize`: the operations, under the names of the function table.

## Main results

* `put_entries_perm_of_fresh`, `put_entries_perm_of_match`, `detach_entries_perm`: what an
  update does to the list of all entries.
* `get_put_of_apart`, `get_detach_of_apart`: an update under one key is invisible to a
  lookup under a key that falls into another bucket or has another 128-byte prefix.
* `frame_iff_apart`: the frame law for two keys holds exactly when they are apart in that
  sense.
-/

open CString

/-- `MAX_KEY_LEN` of `hashmap.h`. -/
def maxKeyLen : ℕ := 128

/-- `hash_str`: djb2 on unsigned 32-bit words. The source adds an `int` that was read
through a signed `char`, so bytes from `0x80` on enter sign-extended. -/
def hashStr (key : Bytes) : UInt32 :=
  key.foldl (fun hash c => ((hash <<< 5) + hash) + c.toInt8.toInt32.toUInt32) 5381

/-- The comparison made at every node of a chain. -/
def keyMatches (key nodeKey : Bytes) : Bool := strncmpEq maxKeyLen nodeKey key

/-- The map: `capacity` buckets and the maintained entry count. -/
structure HashMap (V : Type) where
  buckets : List (List (Bytes × V))
  size : ℤ

namespace HashMap

variable {V : Type}

/-- `self->capacity`. -/
def capacity (m : HashMap V) : ℕ := m.buckets.length

/-- `new_HashMap`: a request for no capacity gives sixteen buckets. -/
def new (initialCapacity : ℤ) : HashMap V where
  buckets := List.replicate (if initialCapacity ≤ 0 then 16 else initialCapacity.toNat) []
  size := 0

/-- `h % self->capacity`. -/
def index (m : HashMap V) (key : Bytes) : ℕ := (hashStr key).toNat % m.capacity

/-- `self->buckets[index]`. -/
def bucket (m : HashMap V) (key : Bytes) : List (Bytes × V) := m.buckets.getD (m.index key) []

/-- The map with another chain in the bucket of `key`. -/
def setBucket (m : HashMap V) (key : Bytes) (chain : List (Bytes × V)) (size : ℤ) :
    HashMap V where
  buckets := m.buckets.set (m.index key) chain
  size := size

/-- `impl_put`: overwrite the first matching node, else push a new node at the head. -/
def put (m : HashMap V) (key : Bytes) (value : V) : HashMap V :=
  match Chain.replace? (keyMatches key) value (m.bucket key) with
  | some chain => m.setBucket key chain m.size
  | none => m.setBucket key ((key, value) :: m.bucket key) (m.size + 1)

/-- `impl_get`. -/
def get (m : HashMap V) (key : Bytes) : Option V := Chain.find? (keyMatches key) (m.bucket key)

/-- `HashMap_hasKey_impl`. -/
def hasKey (m : HashMap V) (key : Bytes) : Bool := (m.get key).isSome

/-- `impl_detach`: unlink the first matching node and hand its value out. -/
def detach (m : HashMap V) (key : Bytes) : Option V × HashMap V :=
  match Chain.unlink? (keyMatches key) (m.bucket key) with
  | some (value, chain) => (some value, m.setBucket key chain (m.size - 1))
  | none => (none, m)

/-- `impl_remove`: the same walk, with the value released. -/
def remove (m : HashMap V) (key : Bytes) : HashMap V := (m.detach key).2

/-- `impl_clear`. -/
def clear (m : HashMap V) : HashMap V where
  buckets := m.buckets.map fun _ => []
  size := 0

/-- The nodes in the order every traversal visits them: bucket by bucket, head first. -/
def entries (m : HashMap V) : List (Bytes × V) := m.buckets.flatten

/-- `HM_keys`. -/
def keys (m : HashMap V) : List Bytes := m.entries.map Prod.fst

/-- `HM_values`. -/
def values (m : HashMap V) : List V := m.entries.map Prod.snd

/-- The walk of `impl_iterate`: it stops at the first node on which the callback answers
false. -/
def iterateFrom {C : Type} (fn : Bytes → V → C → Bool × C) :
    List (Bytes × V) → C → C
  | [], ctx => ctx
  | (key, value) :: nodes, ctx =>
      match fn key value ctx with
      | (true, ctx') => iterateFrom fn nodes ctx'
      | (false, ctx') => ctx'

/-- `impl_iterate`. -/
def iterate {C : Type} (m : HashMap V) (fn : Bytes → V → C → Bool × C) (ctx : C) : C :=
  iterateFrom fn m.entries ctx

/-- `impl_getSize`. -/
def getSize (m : HashMap V) : ℤ := m.size

/-! ### Buckets -/

/-- A new map always has a bucket. -/
theorem capacity_new_pos (n : ℤ) : 0 < (new n : HashMap V).capacity := by
  simp only [capacity, new, List.length_replicate]
  split <;> omega

@[simp] theorem entries_new (n : ℤ) : (new n : HashMap V).entries = [] := by
  simp [entries, new]

@[simp] theorem buckets_setBucket (m : HashMap V) (key : Bytes) (c : List (Bytes × V))
    (s : ℤ) : (m.setBucket key c s).buckets = m.buckets.set (m.index key) c := rfl

@[simp] theorem capacity_setBucket (m : HashMap V) (key : Bytes) (c : List (Bytes × V))
    (s : ℤ) : (m.setBucket key c s).capacity = m.capacity := by
  simp [capacity]

@[simp] theorem index_setBucket (m : HashMap V) (key k : Bytes) (c : List (Bytes × V))
    (s : ℤ) : (m.setBucket key c s).index k = m.index k := by
  simp [index]

@[simp] theorem size_setBucket (m : HashMap V) (key : Bytes) (c : List (Bytes × V))
    (s : ℤ) : (m.setBucket key c s).size = s := rfl

@[simp] theorem capacity_put (m : HashMap V) (key : Bytes) (v : V) :
    (m.put key v).capacity = m.capacity := by
  unfold put
  split <;> simp

@[simp] theorem capacity_detach (m : HashMap V) (key : Bytes) :
    (m.detach key).2.capacity = m.capacity := by
  unfold detach
  split <;> simp

/-- Every key has a bucket. -/
theorem index_lt {m : HashMap V} (hm : 0 < m.capacity) (key : Bytes) :
    m.index key < m.buckets.length :=
  Nat.mod_lt _ hm

/-- The bucket of `key` after the exchange. -/
theorem bucket_setBucket_self {m : HashMap V} (hm : 0 < m.capacity) {key k : Bytes}
    (hk : m.index k = m.index key) (c : List (Bytes × V)) (s : ℤ) :
    (m.setBucket key c s).bucket k = c := by
  have hlt := index_lt hm key
  simp [bucket, hk, hlt]

/-- The other buckets are untouched. -/
theorem bucket_setBucket_of_ne {m : HashMap V} {key k : Bytes}
    (hk : m.index k ≠ m.index key) (c : List (Bytes × V)) (s : ℤ) :
    (m.setBucket key c s).bucket k = m.bucket k := by
  simp only [bucket, index_setBucket, buckets_setBucket]
  rw [List.getD_eq_getElem?_getD, List.getD_eq_getElem?_getD, List.getElem?_set_ne hk.symm]

/-- A bucket's nodes are nodes of the map. -/
theorem mem_entries_of_mem_bucket {m : HashMap V} {key : Bytes} {e : Bytes × V}
    (h : e ∈ m.bucket key) : e ∈ m.entries := by
  rw [bucket, List.getD_eq_getElem?_getD] at h
  cases hb : m.buckets[m.index key]? with
  | none => simp [hb] at h
  | some c =>
      rw [hb, Option.getD_some] at h
      exact List.mem_flatten.mpr ⟨c, List.mem_of_getElem? hb, h⟩

/-- The nodes outside the bucket of `key`. -/
def others (m : HashMap V) (key : Bytes) : List (Bytes × V) :=
  (m.buckets.eraseIdx (m.index key)).flatten

/-- The map's nodes are those of one bucket and the others. -/
theorem entries_perm_bucket {m : HashMap V} (hm : 0 < m.capacity) (key : Bytes) :
    m.entries.Perm (m.bucket key ++ m.others key) := by
  have hlt := index_lt hm key
  have hb : m.bucket key = m.buckets[m.index key] := by simp [bucket, hlt]
  rw [hb]
  exact Chain.flatten_perm_getElem hlt

/-- Exchanging a bucket exchanges its nodes. -/
theorem entries_setBucket_perm {m : HashMap V} (hm : 0 < m.capacity) (key : Bytes)
    (c : List (Bytes × V)) (s : ℤ) :
    (m.setBucket key c s).entries.Perm (c ++ m.others key) :=
  Chain.flatten_set_perm (index_lt hm key) c

/-! ### Updates and the list of all entries -/

/-- A `put` that meets no matching node adds one entry. -/
theorem put_entries_perm_of_fresh {m : HashMap V} (hm : 0 < m.capacity) {key : Bytes}
    (h : ∀ e ∈ m.bucket key, keyMatches key e.1 = false) (v : V) :
    (m.put key v).entries.Perm ((key, v) :: m.entries) ∧ (m.put key v).size = m.size + 1 := by
  unfold put
  rw [Chain.replace?_eq_none_iff.mpr h]
  refine ⟨?_, rfl⟩
  calc (m.setBucket key ((key, v) :: m.bucket key) (m.size + 1)).entries
      |>.Perm ((key, v) :: (m.bucket key ++ m.others key)) := entries_setBucket_perm hm _ _ _
    _ |>.Perm ((key, v) :: m.entries) := ((entries_perm_bucket hm key).symm.cons _)

/-- A `put` that meets a matching node exchanges that node's value and nothing else. -/
theorem put_entries_perm_of_match {m : HashMap V} (hm : 0 < m.capacity) {key : Bytes}
    (h : ∃ e ∈ m.bucket key, keyMatches key e.1 = true) (v : V) :
    ∃ k w rest, keyMatches key k = true ∧ (k, w) ∈ m.bucket key ∧
      m.entries.Perm ((k, w) :: rest) ∧ (m.put key v).entries.Perm ((k, v) :: rest) ∧
      (m.put key v).size = m.size := by
  cases hr : Chain.replace? (keyMatches key) v (m.bucket key) with
  | none =>
      obtain ⟨e, he, hme⟩ := h
      rw [Chain.replace?_eq_none_iff.mp hr e he] at hme
      exact absurd hme (by simp)
  | some c =>
      obtain ⟨c₁, k, w, c₂, hb, rfl, hk, -⟩ := Chain.replace?_eq_some hr
      have hput : m.put key v = m.setBucket key (c₁ ++ (k, v) :: c₂) m.size := by
        simp only [put, hr]
      refine ⟨k, w, c₁ ++ c₂ ++ m.others key, hk, by simp [hb], ?_, ?_, by rw [hput]; rfl⟩
      · refine (entries_perm_bucket hm key).trans ?_
        simp [hb]
      · rw [hput]
        refine (entries_setBucket_perm hm key _ _).trans ?_
        simp

/-- A successful unlinking takes one matching entry out. -/
theorem detach_entries_perm {m : HashMap V} (hm : 0 < m.capacity) {key : Bytes} {v : V}
    (h : (m.detach key).1 = some v) :
    ∃ k, keyMatches key k = true ∧ (k, v) ∈ m.bucket key ∧
      m.entries.Perm ((k, v) :: (m.detach key).2.entries) ∧
      (m.detach key).2.size = m.size - 1 := by
  unfold detach at h ⊢
  cases hr : Chain.unlink? (keyMatches key) (m.bucket key) with
  | none => simp [hr] at h
  | some r =>
      obtain ⟨w, c⟩ := r
      simp only [hr, Option.some.injEq] at h ⊢
      subst h
      obtain ⟨c₁, k, c₂, hb, rfl, hk, -⟩ := Chain.unlink?_eq_some hr
      refine ⟨k, hk, by simp [hb], ?_, rfl⟩
      calc m.entries
          |>.Perm (m.bucket key ++ m.others key) := entries_perm_bucket hm key
        _ |>.Perm ((k, w) :: (c₁ ++ c₂ ++ m.others key)) := by
            simp [hb]
        _ |>.Perm ((k, w) :: (m.setBucket key (c₁ ++ c₂) (m.size - 1)).entries) :=
            (entries_setBucket_perm hm key _ _).symm.cons _

/-- The value `detach` hands out is the one `get` reads. -/
theorem detach_fst (m : HashMap V) (key : Bytes) : (m.detach key).1 = m.get key := by
  rw [get, ← Chain.unlink?_map_fst, detach]
  cases Chain.unlink? (keyMatches key) (m.bucket key) with
  | none => rfl
  | some r => rfl

/-- A `detach` that finds nothing changes nothing. -/
theorem detach_of_get_none {m : HashMap V} {key : Bytes} (h : m.get key = none) :
    (m.detach key).2 = m := by
  have hu : Chain.unlink? (keyMatches key) (m.bucket key) = none :=
    Chain.unlink?_eq_none_iff.mpr (Chain.find?_eq_none_iff.mp h)
  simp [detach, hu]

/-! ### The frame law -/

/-- Two keys are apart in a table of `n` buckets when no node can be found under both:
they fall into different buckets, or differ within the compared prefix. -/
def Apart (n : ℕ) (k k' : Bytes) : Prop :=
  (hashStr k).toNat % n ≠ (hashStr k').toNat % n ∨ k.take maxKeyLen ≠ k'.take maxKeyLen

theorem keyMatches_iff {key nodeKey : Bytes} :
    keyMatches key nodeKey = true ↔ nodeKey.take maxKeyLen = key.take maxKeyLen :=
  strncmpEq_iff

/-- No node key matches two keys with different prefixes. -/
theorem keyMatches_disjoint {k k' : Bytes} (h : k.take maxKeyLen ≠ k'.take maxKeyLen)
    (nodeKey : Bytes) (h' : keyMatches k' nodeKey = true) : keyMatches k nodeKey = false := by
  rw [Bool.eq_false_iff]
  intro hk
  exact h ((keyMatches_iff.mp hk).symm.trans (keyMatches_iff.mp h'))

/-- Exchanging the bucket of `k'` for a chain that reads the same under `k` is invisible
to a lookup of `k`. -/
theorem get_setBucket {m : HashMap V} {k k' : Bytes} {c : List (Bytes × V)} (s : ℤ)
    (h : m.index k = m.index k' →
      Chain.find? (keyMatches k) c = Chain.find? (keyMatches k) (m.bucket k')) :
    (m.setBucket k' c s).get k = m.get k := by
  by_cases hi : m.index k = m.index k'
  · by_cases hm : 0 < m.capacity
    · rw [get, bucket_setBucket_self hm hi, h hi, get]
      simp only [bucket, hi]
    · -- without buckets there is nothing to exchange
      have hb : m.buckets = [] := by simpa [capacity] using hm
      simp [get, bucket, hb]
  · rw [get, bucket_setBucket_of_ne hi, get]

/-- The prefixes of two apart keys that share a bucket differ. -/
theorem Apart.take_ne {m : HashMap V} {k k' : Bytes} (h : Apart m.capacity k k')
    (hi : m.index k = m.index k') : k.take maxKeyLen ≠ k'.take maxKeyLen := by
  rcases h with h | h
  · exact absurd hi h
  · exact h

/-- A `put` under an apart key is invisible. -/
theorem get_put_of_apart {m : HashMap V} {k k' : Bytes} (h : Apart m.capacity k k') (v : V) :
    (m.put k' v).get k = m.get k := by
  unfold put
  cases hr : Chain.replace? (keyMatches k') v (m.bucket k') with
  | some c =>
      exact get_setBucket _ fun hi =>
        Chain.find?_replace?_of_disjoint (keyMatches_disjoint (h.take_ne hi)) hr
  | none =>
      refine get_setBucket _ fun hi => ?_
      have hself : keyMatches k k' = false :=
        keyMatches_disjoint (h.take_ne hi) k' (keyMatches_iff.mpr rfl)
      simp [Chain.find?, hself]

/-- A `detach` under an apart key is invisible. -/
theorem get_detach_of_apart {m : HashMap V} {k k' : Bytes} (h : Apart m.capacity k k') :
    (m.detach k').2.get k = m.get k := by
  unfold detach
  cases hr : Chain.unlink? (keyMatches k') (m.bucket k') with
  | some r =>
      exact get_setBucket _ fun hi =>
        Chain.find?_unlink?_of_disjoint (keyMatches_disjoint (h.take_ne hi)) hr
  | none => rfl

/-- Two keys that are not apart are looked up by the same test in the same bucket. -/
theorem get_eq_of_not_apart {m : HashMap V} {k k' : Bytes} (h : ¬Apart m.capacity k k') :
    m.get k = m.get k' := by
  simp only [Apart, not_or, not_not] at h
  have hi : m.index k = m.index k' := h.1
  have htest : keyMatches k = keyMatches k' := by
    funext nodeKey
    rw [Bool.eq_iff_iff, keyMatches_iff, keyMatches_iff, h.2]
  simp only [get, bucket, hi, htest]

/-- What was put is read back. -/
theorem get_put_self {m : HashMap V} (hm : 0 < m.capacity) (k : Bytes) (v : V) :
    (m.put k v).get k = some v := by
  have hself : keyMatches k k = true := keyMatches_iff.mpr rfl
  simp only [put]
  cases hr : Chain.replace? (keyMatches k) v (m.bucket k) with
  | none =>
      simp only [get]
      rw [bucket_setBucket_self hm rfl]
      simp [Chain.find?, hself]
  | some c =>
      obtain ⟨c₁, k₁, w, c₂, -, rfl, hk₁, hc₁⟩ := Chain.replace?_eq_some hr
      simp only [get]
      rw [bucket_setBucket_self hm rfl, Chain.find?_append_of_none hc₁]
      simp [Chain.find?, hk₁]

/-- The frame law of one map for an update key `k'` and an observed key `k`. -/
def Frame (m : HashMap V) (k k' : Bytes) : Prop :=
  (∀ v, (m.put k' v).get k = m.get k ∧ (m.put k' v).hasKey k = m.hasKey k) ∧
    (m.remove k').get k = m.get k ∧ (m.remove k').hasKey k = m.hasKey k ∧
    (m.detach k').2.get k = m.get k ∧ (m.detach k').2.hasKey k = m.hasKey k

/-- The **frame law**, exactly: in every map, updates under `k'` leave `get k` and `hasKey k`
alone if and only if the two keys are apart. -/
theorem frame_iff_apart [Nontrivial V] (m : HashMap V) (hm : 0 < m.capacity) (k k' : Bytes) :
    m.Frame k k' ↔ Apart m.capacity k k' := by
  constructor
  · intro h
    by_contra hna
    -- two different values put under `k'` are both read back under `k`
    obtain ⟨v, w, hvw⟩ := exists_pair_ne V
    have hread : ∀ x, m.get k = some x := by
      intro x
      have hput : ¬Apart (m.put k' x).capacity k k' := by rwa [capacity_put]
      rw [← (h.1 x).1, get_eq_of_not_apart hput, get_put_self hm]
    exact hvw (Option.some.inj ((hread v).symm.trans (hread w)))
  · intro h
    have hput := fun v => get_put_of_apart h v
    have hdet := get_detach_of_apart h
    refine ⟨fun v => ⟨hput v, ?_⟩, hdet, ?_, hdet, ?_⟩ <;> simp [hasKey, remove, hput, hdet]

/-- Two short keys in a table of sixteen buckets. -/
theorem frame_sample : ((new 16).put [0x61] 1).Frame [0x61] [0x62] :=
  (frame_iff_apart ((new 16).put [0x61] 1) (by decide) [0x61] [0x62]).mpr
    (Or.inr (by decide))

/-- Two 129-byte keys with one 128-byte prefix share a bucket of the default table: the
value put under the second is read back under the first. -/
theorem put_overwrites_long_key :
    let k := List.replicate 128 0x61 ++ [0x61]
    let k' := List.replicate 128 0x61 ++ [0x71]
    k ≠ k' ∧ (((new 16).put k 1).get k = some 1) ∧
      (((new 16).put k 1).put k' 2).get k = some 2 := by
  decide +kernel

end HashMap
