import LibCore.CInt
import LibCore.Chain

/-!
# The Object-Keyed `Hashtable`

`hashtable.c`: chains of entries that keep the hash of their key, in a table that doubles when it
has as many entries as its threshold. Keys are compared by the `equals` and `hashCode` of their
class.

`capacity`, `count` and `threshold` are `int` while the constructor takes a `size_t` and the
table is indexed with one, so the conversions between the two types are written out. An operation
that divides by zero or reads outside the table has no result (`none`). Allocations succeed when
their size can be stated at all. The load factor enters through the threshold it gives to each
capacity, an arbitrary function here. The lock is left out: every operation holds it from entry to
exit.

## Main definitions

* `KeyClass`: the comparison and the hash of a class of keys.
* `Hashtable.put`, `get`, `containsKey`, `remove`, `clear`, `keys`, `values`, `size`: the function
  table.
* `Hashtable.iterator`, `HashtableIterator.next`: the iterator.
-/

/-- `equals` and `hashCode` of a class of keys. -/
structure KeyClass (K : Type) where
  equals : K → K → Bool
  hashCode : K → ℤ

/-- `(size_t)hashCode(key)`. -/
def KeyClass.hash {K : Type} (cls : KeyClass K) (key : K) : ℕ := sizeOfInt (cls.hashCode key)

/-- The test made at every entry: `e->hash == hash && equals(e->key, key)`. -/
def KeyClass.test {K : Type} (cls : KeyClass K) (key : K) (node : K × ℕ) : Bool :=
  node.2 == cls.hash key && cls.equals node.1 key

/-- `HashtableEntry`: the key and its hash, and the value. -/
abbrev HashtableEntry (K V : Type) := (K × ℕ) × V

/-- `Hashtable`; `loadFactor` gives the threshold of a capacity. -/
structure Hashtable (K V : Type) where
  table : List (List (HashtableEntry K V))
  capacity : ℤ
  count : ℤ
  threshold : ℤ
  loadFactor : ℤ → ℤ
  modCount : UInt64

namespace Hashtable

variable {K V : Type}

/-- The buckets `calloc` gives for a number of them: none when the size overflows. -/
def calloc (n : ℕ) : Option (List (List (HashtableEntry K V))) :=
  if n * 8 < 2 ^ 64 then some (List.replicate n []) else none

/-- `new_Hashtable`. The table is `NULL` when it cannot be allocated. -/
def new (initialCapacity : ℕ) (loadFactor : ℤ → ℤ) : Hashtable K V :=
  let capacity := intOfSize (if initialCapacity = 0 then 11 else initialCapacity)
  { table := (calloc (sizeOfInt capacity)).getD []
    capacity := capacity
    count := 0
    threshold := loadFactor capacity
    loadFactor := loadFactor
    modCount := 0 }

/-- `hash % self->capacity`. -/
def index? (t : Hashtable K V) (hash : ℕ) : Option ℕ :=
  if sizeOfInt t.capacity = 0 then none else some (hash % sizeOfInt t.capacity)

/-- The buckets `0 .. capacity`, as every loop over the table reads them. -/
def buckets? (t : Hashtable K V) : Option (List (List (HashtableEntry K V))) :=
  if sizeOfInt t.capacity ≤ t.table.length then some (t.table.take (sizeOfInt t.capacity)) else none

/-- One round of `rehash`: an entry goes to the head of its new bucket. -/
def relink (newCap : ℕ) (newTable : List (List (HashtableEntry K V))) (e : HashtableEntry K V) :
    List (List (HashtableEntry K V)) :=
  newTable.modify (e.1.2 % newCap) (e :: ·)

/-- `rehash`. -/
def rehash (t : Hashtable K V) : Option (Hashtable K V) :=
  let newCap := (sizeOfInt t.capacity * 2 + 1) % 2 ^ 64
  match calloc newCap with
  | none => some t
  | some newTable => do
      let old ← t.buckets?
      some { t with
        capacity := intOfSize newCap
        threshold := t.loadFactor newCap
        table := old.flatten.foldl (relink newCap) newTable
        modCount := t.modCount + 1 }

/-- `ht_size`. -/
def size (t : Hashtable K V) : ℕ := sizeOfInt t.count

/-- `ht_isEmpty`. -/
def isEmpty (t : Hashtable K V) : Bool := t.size == 0

variable (cls : KeyClass K)

/-- `ht_get`. -/
def get (t : Hashtable K V) : Option K → Option (Option V)
  | none => some none
  | some key => do
      let idx ← t.index? (cls.hash key)
      let chain ← t.table[idx]?
      some (Chain.find? (cls.test key) chain)

/-- `ht_containsKey`. -/
def containsKey (t : Hashtable K V) : Option K → Option Bool
  | none => some false
  | some key => do
      let idx ← t.index? (cls.hash key)
      let chain ← t.table[idx]?
      some (Chain.find? (cls.test key) chain).isSome

/-- `ht_put` after the rehash. -/
def insert (t : Hashtable K V) (key : K) (value : V) : Option (Option V × Hashtable K V) := do
  let hash := cls.hash key
  let idx ← t.index? hash
  let chain ← t.table[idx]?
  match Chain.replace? (cls.test key) value chain with
  | some chain' =>
      some (Chain.find? (cls.test key) chain, { t with table := t.table.set idx chain' })
  | none =>
      some (none, { t with
        table := t.table.set idx (((key, hash), value) :: chain)
        count := Int.bmod (t.count + 1) (2 ^ 32)
        modCount := t.modCount + 1 })

/-- `ht_put`. -/
def put (t : Hashtable K V) : Option K → Option V → Option (Option V × Hashtable K V)
  | some key, some value => do
      let t ← if t.count ≥ t.threshold then t.rehash else some t
      t.insert cls key value
  | _, _ => some (none, t)

/-- `ht_remove`. -/
def remove (t : Hashtable K V) : Option K → Option (Option V × Hashtable K V)
  | none => some (none, t)
  | some key => do
      let idx ← t.index? (cls.hash key)
      let chain ← t.table[idx]?
      match Chain.unlink? (cls.test key) chain with
      | some (old, chain') =>
          some (some old, { t with
            table := t.table.set idx chain'
            count := Int.bmod (t.count - 1) (2 ^ 32)
            modCount := t.modCount + 1 })
      | none => some (none, t)

/-- `ht_clear`. -/
def clear (t : Hashtable K V) : Option (Hashtable K V) := do
  let old ← t.buckets?
  some { t with
    table := old.map (fun _ => []) ++ t.table.drop old.length
    count := 0
    modCount := t.modCount + 1 }

/-- `ht_keys`. -/
def keys (t : Hashtable K V) : Option (List K) := do
  let buckets ← t.buckets?
  some (buckets.flatten.map fun e => e.1.1)

/-- `ht_values`. -/
def values (t : Hashtable K V) : Option (List V) := do
  let buckets ← t.buckets?
  some (buckets.flatten.map Prod.snd)

end Hashtable

/-! ### The iterator -/

/-- `HashtableIterator`; `currentEntry` is the bucket of the entry and its place there. -/
structure HashtableIterator where
  currentBucketIndex : ℕ
  currentEntry : Option (ℕ × ℕ)
  expectedModCount : UInt64

namespace Hashtable

variable {K V : Type}

/-- The loop that looks for the next bucket with an entry: the bucket, and the index after it. The
loop has `fuel` buckets left. -/
def scan (t : Hashtable K V) : ℕ → ℕ → Option (Option (ℕ × ℕ) × ℕ)
  | 0, index => some (none, index)
  | fuel + 1, index => do
      let chain ← t.table[index]?
      if chain.isEmpty then t.scan fuel (index + 1) else some (some (index, 0), index + 1)

/-- The loop from `index` on. -/
def scanFrom (t : Hashtable K V) (index : ℕ) : Option (Option (ℕ × ℕ) × ℕ) :=
  t.scan (sizeOfInt t.capacity - index) index

/-- `ht_iterator`. -/
def iterator (t : Hashtable K V) : Option HashtableIterator := do
  let (entry, index) ← t.scanFrom 0
  some { currentBucketIndex := index, currentEntry := entry, expectedModCount := t.modCount }

end Hashtable

namespace HashtableIterator

variable {K V : Type}

/-- `it_hasNext`. -/
def hasNext (it : HashtableIterator) : Bool := it.currentEntry.isSome

/-- `it_next`: the entry it hands out, and the iterator. -/
def next (it : HashtableIterator) (t : Hashtable K V) :
    Option (Option (K × V) × HashtableIterator) :=
  if t.modCount ≠ it.expectedModCount then some (none, it)
  else
    match it.currentEntry with
    | none => some (none, it)
    | some (bucket, place) => do
        let chain ← t.table[bucket]?
        let e ← chain[place]?
        if place + 1 < chain.length then
          some (some (e.1.1, e.2), { it with currentEntry := some (bucket, place + 1) })
        else
          let (entry, index) ← t.scanFrom it.currentBucketIndex
          some (some (e.1.1, e.2), { it with currentBucketIndex := index, currentEntry := entry })

/-- `while (it->hasNext(it)) it->next(it, &key, &value)`, for at most `fuel` rounds: what it
hands out, and the iterator. -/
def drain (t : Hashtable K V) : ℕ → HashtableIterator → Option (List (K × V) × HashtableIterator)
  | 0, it => some ([], it)
  | fuel + 1, it =>
      if it.hasNext then do
        let (e, it) ← it.next t
        let (es, it) ← drain t fuel it
        some (e.toList ++ es, it)
      else some ([], it)

end HashtableIterator
