import LibCore.Bytes
import LibCore.HashtableRefine

/-!
# `Hashtable` Keyed by `String`

`equals` and `hashCode` of `object.c` ask the class of an object and fall back to its address.
`stringClass` defines neither, so a `Hashtable` finds a `String` only when it is asked with the very
object that is stored; the text does not matter. `DateTime`, `Locale` and `Regex` define both.

## Main results

* `string_key_iff`: a `String` acts on the entry of a stored key exactly when it is that key.
-/

/-- The address of an object. -/
abbrev ObjectRef := UInt64

/-- The two entries of a class that `equals` and `hashCode` use. -/
structure ObjectClass where
  equals : Option (ObjectRef → ObjectRef → Bool)
  hashCode : Option (ObjectRef → ℤ)

/-- `equals`, for two objects of one class. -/
def ObjectClass.equalsOf (cls : ObjectClass) (obj other : ObjectRef) : Bool :=
  if obj = other then true
  else
    match cls.equals with
    | some f => f obj other
    | none => false

/-- `hashCode`. -/
def ObjectClass.hashCodeOf (cls : ObjectClass) (obj : ObjectRef) : ℤ :=
  match cls.hashCode with
  | some f => f obj
  | none => intOfSize (obj ^^^ (obj >>> 32)).toNat

/-- `stringClass`. -/
def stringClass : ObjectClass where
  equals := none
  hashCode := none

theorem stringClass_equalsOf (a b : ObjectRef) : stringClass.equalsOf a b = true ↔ a = b := by
  simp [ObjectClass.equalsOf, stringClass]

/-- `String` objects as keys. -/
def stringKeys : LawfulKeys ObjectRef where
  equals := stringClass.equalsOf
  hashCode := stringClass.hashCodeOf
  refl a := (stringClass_equalsOf a a).mpr rfl
  symm a b h := (stringClass_equalsOf b a).mpr ((stringClass_equalsOf a b).mp h).symm
  trans a b c h h' := (stringClass_equalsOf a c).mpr
    (((stringClass_equalsOf a b).mp h).trans ((stringClass_equalsOf b c).mp h'))
  hashCode_eq a b h := by rw [(stringClass_equalsOf a b).mp h]

theorem stringKeys_key {a b : ObjectRef} : stringKeys.key a = stringKeys.key b ↔ a = b :=
  stringKeys.key_eq_iff.trans (stringClass_equalsOf a b)

namespace Hashtable

variable {V : Type}

/-- `get`, `containsKey`, `remove` and `put` under the `String` `k'` act on the entry of `k`. -/
structure ActsOn (t : Hashtable ObjectRef V) (k k' : ObjectRef) : Prop where
  get : t.get stringKeys.toKeyClass (some k') = t.get stringKeys.toKeyClass (some k)
  containsKey : t.containsKey stringKeys.toKeyClass (some k') = some true
  remove : ∃ old t', t.remove stringKeys.toKeyClass (some k') = some (old, t') ∧
    t'.containsKey stringKeys.toKeyClass (some k) = some false ∧ t'.size + 1 = t.size
  put : ∀ v, ∃ old t', t.put stringKeys.toKeyClass (some k') (some v) = some (old, t') ∧
    t'.get stringKeys.toKeyClass (some k) = some (some v) ∧ t'.size = t.size

theorem remove_capacity {K : Type} {cls : KeyClass K} {t t' : Hashtable K V} {k : K}
    {old : Option V} (h : t.remove cls (some k) = some (old, t')) : t'.capacity = t.capacity := by
  simp only [remove, Option.bind_eq_bind, Option.bind_eq_some_iff] at h
  obtain ⟨idx, -, chain, -, h⟩ := h
  split at h <;> cases h <;> rfl

/-- The keys of a table without an entry and with a changed one. -/
theorem card_keys_erase {K : Type} [DecidableEq K] {f : Finmap fun _ : K => V} {k : K} {v : V}
    (h : f.lookup k = some v) : (f.erase k).keys.card + 1 = f.keys.card := by
  have hmem : k ∈ f.keys := by
    rw [Finmap.mem_keys, ← Finmap.lookup_isSome, h]
    rfl
  rw [Finmap.keys_erase, Finset.card_erase_add_one hmem]

theorem card_keys_insert {K : Type} [DecidableEq K] {f : Finmap fun _ : K => V} {k : K} {v : V}
    (h : f.lookup k = some v) (w : V) : (f.insert k w).keys.card = f.keys.card := by
  have hmem : k ∈ f := by
    rw [← Finmap.lookup_isSome, h]
    rfl
  congr 1
  ext k'
  rw [Finmap.mem_keys, Finmap.mem_keys, Finmap.mem_insert]
  exact ⟨fun hk => hk.elim (· ▸ hmem) id, .inr⟩

/-- On a table that stands for a finite map, only the stored object itself acts on its entry. -/
theorem Represents.actsOn_iff {t : Hashtable ObjectRef V} {f : stringKeys.FMap V}
    (h : Represents stringKeys t f) {k k' : ObjectRef} {v : V}
    (hk : f.lookup (stringKeys.key k) = some v)
    (hput : ∀ v, (Op.put (some k') (some v)).Fits stringKeys.toKeyClass t) :
    ActsOn t k k' ↔ k' = k := by
  have hcap := h.capacity_ne_zero hk
  constructor
  · rintro ⟨-, -, ⟨old, t', hremove, hgone, -⟩, -⟩
    obtain ⟨t'', hremove', h'⟩ := h.remove hcap k'
    obtain rfl : t'' = t' := by
      rw [hremove] at hremove'
      exact (Prod.mk.inj (Option.some.inj hremove')).2.symm
    have hcap' : t''.capacity ≠ 0 := remove_capacity hremove ▸ hcap
    by_contra hne
    rw [h'.containsKey hcap', Finmap.lookup_erase_ne (fun heq => hne (stringKeys_key.mp heq).symm),
      hk] at hgone
    simp at hgone
  · rintro rfl
    refine ⟨rfl, ?_, ?_, fun w => ?_⟩
    · rw [h.containsKey hcap, hk]
      rfl
    · obtain ⟨t', hremove, h'⟩ := h.remove hcap k'
      refine ⟨_, t', hremove, ?_, ?_⟩
      · rw [h'.containsKey (remove_capacity hremove ▸ hcap), Finmap.lookup_erase]
        rfl
      · rw [h'.size, h.size, card_keys_erase hk]
    · obtain ⟨t', hput', h'⟩ := h.put (hput w)
      have hlookup : (f.insert (stringKeys.key k') w).lookup (stringKeys.key k') = some w :=
        Finmap.lookup_insert _
      refine ⟨_, t', hput', ?_, ?_⟩
      · rw [h'.get (h'.capacity_ne_zero hlookup), hlookup]
      · rw [h'.size, h.size, card_keys_insert hk]

/-- The calls that put values under `String` keys. -/
def puts (entries : List (ObjectRef × V)) : List (Op ObjectRef V) :=
  entries.map fun e => .put (some e.1) (some e.2)

/-- **A `Hashtable` looks `String` keys up by identity.** In every table that puts have filled, a
`String` with the text of a stored key acts on the entry of that key exactly when it is the stored
object itself. -/
theorem string_key_iff (text : ObjectRef → Bytes) (initialCapacity : ℕ) (loadFactor : ℤ → ℤ)
    (hcapacity : 0 ≤ intOfSize (requested initialCapacity)) (entries : List (ObjectRef × V))
    (hfits : FitsRun stringKeys.toKeyClass (Hashtable.new initialCapacity loadFactor)
      (puts entries))
    (t : Hashtable ObjectRef V)
    (ht : after stringKeys.toKeyClass (Hashtable.new initialCapacity loadFactor) (puts entries) =
      some t)
    (k k' : ObjectRef) (hstored : t.containsKey stringKeys.toKeyClass (some k) = some true)
    (_htext : text k' = text k)
    (hput : ∀ v, (Op.put (some k') (some v)).Fits stringKeys.toKeyClass t) :
    ActsOn t k k' ↔ k' = k := by
  obtain ⟨t', f, hafter, h⟩ := (represents_new hcapacity loadFactor).after hfits
  obtain rfl : t' = t := Option.some.inj (hafter.symm.trans ht)
  have hcap : t'.capacity ≠ 0 := by
    intro hzero
    simp [containsKey, index?, hzero, sizeOfInt] at hstored
  rw [h.containsKey hcap, Option.some.injEq, Option.isSome_iff_exists] at hstored
  obtain ⟨v, hv⟩ := hstored
  exact h.actsOn_iff hv hput

/-- The table of one put of `true` under the `String` at `4096`. -/
def oneString : Option (Hashtable ObjectRef Bool) :=
  after stringKeys.toKeyClass (Hashtable.new 11 fun c => c * 3 / 4) (puts [(4096, true)])

/-- Two objects with one text: only the stored one acts on the entry. -/
theorem string_key_iff_sample :
    ∃ t, oneString = some t ∧ (ActsOn t 4096 4096 ↔ (4096 : ObjectRef) = 4096) ∧
      (ActsOn t 4096 8192 ↔ (8192 : ObjectRef) = 4096) := by
  have hfits : FitsRun stringKeys.toKeyClass
      (Hashtable.new 11 fun c => c * 3 / 4 : Hashtable ObjectRef Bool) (puts [(4096, true)]) := by
    decide +kernel
  have hstored : ∀ t ∈ oneString, t.containsKey stringKeys.toKeyClass (some 4096) = some true ∧
      (∀ v, (Op.put (some 4096) (some v)).Fits stringKeys.toKeyClass t) ∧
      ∀ v, (Op.put (some 8192) (some v)).Fits stringKeys.toKeyClass t := by
    decide +kernel
  have hnew : Represents stringKeys
      (Hashtable.new 11 fun c => c * 3 / 4 : Hashtable ObjectRef Bool) ∅ :=
    represents_new (by decide) _
  obtain ⟨t, f, ht, -⟩ := hnew.after hfits
  obtain ⟨hcontains, hput, hput'⟩ := hstored t ht
  exact ⟨t, ht, string_key_iff (fun _ => "ID_100".toUTF8.toList) 11 _ (by decide) _ hfits t ht _ _
      hcontains rfl hput,
    string_key_iff (fun _ => "ID_100".toUTF8.toList) 11 _ (by decide) _ hfits t ht _ _
      hcontains rfl hput'⟩

/-- A second `String` with the text of the stored key is not found, and putting under it adds a
second entry. -/
theorem string_key_not_found :
    ∃ t ∈ oneString, t.containsKey stringKeys.toKeyClass (some 4096) = some true ∧
      t.containsKey stringKeys.toKeyClass (some 8192) = some false ∧
      t.get stringKeys.toKeyClass (some 8192) = some none ∧
      ∃ r ∈ t.put stringKeys.toKeyClass (some 8192) (some false),
        r.2.size = 2 ∧ r.2.get stringKeys.toKeyClass (some 4096) = some (some true) := by
  decide +kernel

end Hashtable
