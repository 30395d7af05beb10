import Mathlib.Data.List.ReduceOption
import LibCore.HashMap
import LibCore.RefCount

/-!
# Reference Counts of the `HashMap`

`put` of `hashmap.c` with the references it gives up and takes: it releases the value that was stored under
the key and retains the new one, in this order. The map holds one reference to each of its values. What the
last reference to a value takes with it is left to `RefCount.release`.

## Main definitions

* `implPut`: `impl_put` on the heap of objects and the map.
* `PutCounts`: what a `put` does to the counts.

## Main results

* `implPut_counts`: the counts after a `put`, for a value that survives the release of the replaced one.
* `implPut_sound`: the heap stays sound.
-/

open CString RefCount

namespace HashMap

variable {ι : Type} [DecidableEq ι]

/-- The greatest `atomic_int`. -/
def intMax : ℕ := 2 ^ 31 - 1

/-- `RELEASE`. -/
def releasePtr (fuel : ℕ) (h : Heap ι) (obj : Option ι) : Option (Heap ι) := release fuel h obj.toList

/-- `RETAIN`. An object that is gone, or a count that leaves `atomic_int`, has no result. -/
def retainPtr (h : Heap ι) : Option ι → Option (Heap ι)
  | none => some h
  | some x =>
      match h x with
      | none => none
      | some c => if c.count < intMax then some (RefCount.put h x (some { c with count := c.count + 1 })) else none

/-- `impl_put`. `alloc` says whether the node and its key can be allocated. -/
def implPut (fuel : ℕ) (alloc : Bool) (h : Heap ι) (m : HashMap (Option ι)) (key : Bytes) (value : Option ι) :
    Option (Heap ι × HashMap (Option ι)) :=
  match m.get key with
  | some old =>
      (releasePtr fuel h old).bind fun h => (retainPtr h value).map fun h => (h, m.put key value)
  | none => if alloc then (retainPtr h value).map fun h => (h, m.put key value) else some (h, m)

/-- The references the map holds. -/
def held (m : HashMap (Option ι)) : List ι := m.values.reduceOption

/-- What a `put` of `v` does to the counts, where `old` is the object that was stored under the key, if any.
The objects of `gone` are destroyed, and a destroyed object has given up what it owned. -/
structure PutCounts (h : Heap ι) (old : Option ι) (v : ι) (gone : Finset ι) (h' : Heap ι) : Prop where
  live : (h' v).isSome
  destroyed : ∀ x ∈ gone, (h x).isSome ∧ h' x = none
  others : ∀ x ∉ gone, (h' x).isSome = (h x).isSome
  count_add : ∀ x, count h' x + old.toList.count x + ∑ d ∈ gone, (owned h d).count x =
    count h x + [v].count x
  of_one_lt : ∀ x ∈ old, 1 < count h x → gone = ∅
  of_one : ∀ x ∈ old, count h x = 1 → x ∈ gone
  of_none : old = none → gone = ∅

/-! ### The references of the map -/

/-- A `put` over a stored value exchanges it and nothing else. -/
theorem entries_put_of_get {V : Type} {m : HashMap V} (hm : 0 < m.capacity) {key : Bytes} {w : V}
    (hget : m.get key = some w) (v : V) :
    ∃ k rest, m.entries.Perm ((k, w) :: rest) ∧ (m.put key v).entries.Perm ((k, v) :: rest) := by
  cases hr : Chain.replace? (keyMatches key) v (m.bucket key) with
  | none =>
      rw [get, Chain.find?_eq_none_iff.mpr (Chain.replace?_eq_none_iff.mp hr)] at hget
      exact absurd hget (by simp)
  | some c =>
      obtain ⟨c₁, k, w', c₂, hb, rfl, hk, hc₁⟩ := Chain.replace?_eq_some hr
      rw [get, hb, Chain.find?_append_of_none hc₁, Chain.find?, if_pos hk] at hget
      obtain rfl : w' = w := Option.some.inj hget
      have hput : m.put key v = m.setBucket key (c₁ ++ (k, v) :: c₂) m.size := by
        simp only [put, hr]
      refine ⟨k, c₁ ++ c₂ ++ m.others key, (entries_perm_bucket hm key).trans ?_, ?_⟩
      · simp [hb]
      · rw [hput]
        refine (entries_setBucket_perm hm key _ _).trans ?_
        simp

theorem count_held_cons {m : HashMap (Option ι)} {k : Bytes} {v : Option ι} {rest : List (Bytes × Option ι)}
    (hperm : m.entries.Perm ((k, v) :: rest)) (x : ι) :
    m.held.count x = v.toList.count x + (rest.map Prod.snd).reduceOption.count x := by
  have hheld : m.held.Perm (v :: rest.map Prod.snd).reduceOption := (hperm.map Prod.snd).filterMap id
  rw [hheld.count_eq, ← List.singleton_append, List.reduceOption_append, List.reduceOption_singleton,
    List.count_append]

/-- The references of the map before and after a `put` over a stored value. -/
theorem count_held_of_get {m : HashMap (Option ι)} (hm : 0 < m.capacity) {key : Bytes} {old : Option ι}
    (hget : m.get key = some old) (v : ι) :
    ∃ others : ι → ℕ, ∀ x, m.held.count x = old.toList.count x + others x ∧
      (m.put key (some v)).held.count x = [v].count x + others x := by
  obtain ⟨k, rest, hbefore, hafter⟩ := entries_put_of_get hm hget (some v)
  exact ⟨fun x => (rest.map Prod.snd).reduceOption.count x,
    fun x => ⟨count_held_cons hbefore x, count_held_cons hafter x⟩⟩

/-- The references of the map after a `put` under a new key. -/
theorem count_held_of_fresh {m : HashMap (Option ι)} (hm : 0 < m.capacity) {key : Bytes}
    (hget : m.get key = none) (v x : ι) :
    (m.put key (some v)).held.count x = [v].count x + m.held.count x := by
  have hperm := (put_entries_perm_of_fresh hm (Chain.find?_eq_none_iff.mp hget) (some v)).1
  exact count_held_cons hperm x

/-! ### Taking a reference -/

variable {s : Finset ι} {h : Heap ι} {kept : ι → ℕ} {v : ι}

/-- A live object can be retained while there is room in its count. -/
theorem retainPtr_spec (hs : Sound s h kept []) (hv : (h v).isSome) (hroom : count h v < intMax) :
    ∃ h', retainPtr h (some v) = some h' ∧ Sound s h' (fun x => [v].count x + kept x) [] ∧
      (∀ x, (h' x).isSome = (h x).isSome) ∧ (∀ x, count h' x = count h x + [v].count x) := by
  obtain ⟨c, hc⟩ := Option.isSome_iff_exists.mp hv
  have hcount : count h v = c.count := by
    rw [count, hc]
    rfl
  have hsome : ∀ x, (RefCount.put h v (some { c with count := c.count + 1 }) x).isSome = (h x).isSome := by
    intro x
    by_cases hx : x = v
    · rw [hx, put_self, hc]
      rfl
    · rw [put_of_ne h hx]
  have hadd : ∀ x, count (RefCount.put h v (some { c with count := c.count + 1 })) x =
      count h x + [v].count x := by
    intro x
    rw [count_put]
    by_cases hx : x = v
    · rw [if_pos hx, Option.elim_some, hx, List.count_singleton_self, hcount]
    · rw [if_neg hx, List.count_singleton, if_neg (by simpa using Ne.symm hx), Nat.add_zero]
  refine ⟨_, by rw [retainPtr, hc]; exact if_pos (hcount ▸ hroom), ⟨fun x hx => ?_, fun x hx => ?_, fun x => ?_⟩,
    hsome, hadd⟩
  · exact hs.mem_of_isSome x (by rwa [hsome] at hx)
  · rw [hadd]
    exact Nat.add_pos_left (hs.pos x (by rwa [hsome] at hx)) _
  · have hcov := hs.covered x
    rw [refs, owned_put_count hc, ← refs, hadd]
    omega

/-! ### The operation -/

/-- The object that is stored under a key. -/
def stored (m : HashMap (Option ι)) (key : Bytes) : Option ι := (m.get key).join

/-- Releasing what a pointer leads to. -/
theorem releasePtr_spec {fuel : ℕ} {old : Option ι} (hs : Sound s h kept old.toList) (hfuel : total s h ≤ fuel) :
    ∃ h' gone, releasePtr fuel h old = some h' ∧ Sound s h' kept [] ∧ Released h old.toList gone h' ∧
      (∀ x ∈ old, 1 < count h x → gone = ∅) ∧ (∀ x ∈ old, count h x = 1 → x ∈ gone) ∧
      (old = none → gone = ∅) := by
  cases old with
  | none => exact ⟨h, ∅, by simp [releasePtr, release], hs, .nil h, by simp, by simp, fun _ => rfl⟩
  | some x =>
      obtain ⟨h', gone, hrun, hsound, hr, hmany, hlast⟩ := release_one hs hfuel
      refine ⟨h', gone, hrun, hsound, hr, fun y hy => ?_, fun y hy => ?_, fun h0 => absurd h0 (by simp)⟩
      · rwa [← Option.some.inj hy]
      · rwa [← Option.some.inj hy]

/-- A `put` that stores its value: what it returns, that the heap stays sound, and what it does to the
counts. -/
theorem implPut_spec {m : HashMap (Option ι)} (hm : 0 < m.capacity) {key : Bytes} {fuel : ℕ} {alloc : Bool}
    (hs : Sound s h (fun x => kept x + m.held.count x) []) (hfuel : total s h ≤ fuel) (hv : (h v).isSome)
    (hroom : count h v < intMax) (hstore : (m.get key).isSome ∨ alloc = true)
    (hsurvive : ∀ h', releasePtr fuel h (m.stored key) = some h' → (h' v).isSome) :
    ∃ h' gone, implPut fuel alloc h m key (some v) = some (h', m.put key (some v)) ∧
      Sound s h' (fun x => kept x + (m.put key (some v)).held.count x) [] ∧
      PutCounts h (m.stored key) v gone h' := by
  cases hget : m.get key with
  | none =>
      obtain rfl : alloc = true := by simpa [hget] using hstore
      obtain ⟨h', hretain, hsound, hsome, hadd⟩ := retainPtr_spec hs hv hroom
      have hnone : m.stored key = none := by rw [stored, hget]; rfl
      refine ⟨h', ∅, by simp [implPut, hget, hretain], ?_, ?_⟩
      · refine ⟨hsound.mem_of_isSome, hsound.pos, fun x => ?_⟩
        have hcov := hsound.covered x
        rw [count_held_of_fresh hm hget]
        omega
      · rw [hnone]
        refine ⟨by rwa [hsome], by simp, fun x _ => hsome x, fun x => ?_, by simp, by simp, fun _ => rfl⟩
        simp [hadd]
  | some old =>
      obtain ⟨others, hheld⟩ := count_held_of_get hm hget v
      have hstored : m.stored key = old := by rw [stored, hget]; rfl
      rw [hstored] at hsurvive ⊢
      have hsound : Sound s h (fun x => kept x + others x) old.toList := by
        refine ⟨hs.mem_of_isSome, hs.pos, fun x => ?_⟩
        have hcov := hs.covered x
        rw [(hheld x).1, List.count_nil] at hcov
        omega
      obtain ⟨h₁, gone, hrelease, hsound₁, hr, hmany, hlast, hnull⟩ := releasePtr_spec hsound hfuel
      have hlive := hsurvive h₁ hrelease
      have hroom₁ : count h₁ v < intMax := by
        have hcount := hr.count_add v
        omega
      obtain ⟨h', hretain, hsound', hsome, hadd⟩ := retainPtr_spec hsound₁ hlive hroom₁
      refine ⟨h', gone, by simp [implPut, hget, hrelease, hretain], ?_, ?_⟩
      · refine ⟨hsound'.mem_of_isSome, hsound'.pos, fun x => ?_⟩
        have hcov := hsound'.covered x
        rw [(hheld x).2]
        omega
      · refine ⟨by rwa [hsome], fun x hx => ⟨(hr.of_mem x hx).1, ?_⟩, fun x hx => ?_, fun x => ?_, hmany, hlast, hnull⟩
        · have hgone := hsome x
          rw [(hr.of_mem x hx).2] at hgone
          simpa using hgone
        · rw [hsome, (hr.of_notMem x hx).2]
        · have hcount := hr.count_add x
          rw [hadd]
          omega

/-- A value the caller holds a reference of its own to survives the release of the replaced one. -/
theorem survives_of_kept {m : HashMap (Option ι)} (hm : 0 < m.capacity) {key : Bytes} {fuel : ℕ}
    (hs : Sound s h (fun x => kept x + m.held.count x) []) (hfuel : total s h ≤ fuel) (hkept : 0 < kept v) :
    ∀ h', releasePtr fuel h (m.stored key) = some h' → (h' v).isSome := by
  intro h' hrelease
  have hsound : Sound s h kept (m.stored key).toList := by
    refine ⟨hs.mem_of_isSome, hs.pos, fun x => ?_⟩
    have hcov := hs.covered x
    cases hget : m.get key with
    | none =>
        rw [stored, hget]
        exact (Nat.le_add_right _ _).trans (by simpa [Nat.add_assoc] using hcov)
    | some old =>
        obtain ⟨others, hheld⟩ := count_held_of_get hm hget v
        rw [(hheld x).1, List.count_nil] at hcov
        rw [stored, hget, Option.join_some]
        omega
  obtain ⟨h₁, -, hrun, hsound₁, -⟩ := releasePtr_spec hsound hfuel
  obtain rfl : h₁ = h' := Option.some.inj (hrun.symm.trans hrelease)
  have hcov := hsound₁.covered v
  by_contra hgone
  have hzero : count h₁ v = 0 := by
    rw [count, Option.not_isSome_iff_eq_none.mp hgone, Option.elim_none]
  omega

/-- **The counts after a `put`.** A new key whose node cannot be allocated changes nothing. In all other
cases a value that survives one release of the replaced object is live afterwards, with one reference more;
the replaced object has one less, and every count goes down by the references that destroyed objects have
owned. Nothing is destroyed while the replaced object has another reference. -/
theorem implPut_counts {m : HashMap (Option ι)} (hm : 0 < m.capacity) {key : Bytes} {fuel : ℕ} {alloc : Bool}
    (hs : Sound s h (fun x => kept x + m.held.count x) []) (hfuel : total s h ≤ fuel) (hv : (h v).isSome)
    (hroom : count h v < intMax)
    (hsurvive : ∀ h', releasePtr fuel h (m.stored key) = some h' → (h' v).isSome) :
    (m.get key = none → alloc = false → implPut fuel alloc h m key (some v) = some (h, m)) ∧
      ((m.get key).isSome ∨ alloc = true → ∃ h' gone,
        implPut fuel alloc h m key (some v) = some (h', m.put key (some v)) ∧
          PutCounts h (m.stored key) v gone h') := by
  refine ⟨fun hget halloc => by simp [implPut, hget, halloc], fun hstore => ?_⟩
  obtain ⟨h', gone, hrun, -, hcounts⟩ := implPut_spec hm hs hfuel hv hroom hstore hsurvive
  exact ⟨h', gone, hrun, hcounts⟩

/-- Three objects: the first one owns a reference to the second. -/
def sampleHeap : Heap ℕ := fun x =>
  if x = 1 then some ⟨1, [2]⟩ else if x = 2 then some ⟨2, []⟩ else if x = 3 then some ⟨1, []⟩ else none

/-- A map that holds the first object under `a`. -/
def sampleMap : HashMap (Option ℕ) := (new 16).put [0x61] (some 1)

theorem sampleHeap_sound :
    Sound {1, 2, 3} sampleHeap (fun x => [2, 3].count x + sampleMap.held.count x) [] := by
  have hheld : sampleMap.held = [1] := by decide
  refine ⟨fun x hx => ?_, fun x hx => ?_, fun x => ?_⟩
  · simp only [sampleHeap] at hx
    split_ifs at hx <;> simp_all
  · simp only [sampleHeap] at hx
    simp only [count, sampleHeap]
    split_ifs at hx ⊢ <;> simp_all
  · rw [hheld]
    simp only [refs, count, owned, sampleHeap]
    split_ifs <;> simp_all [List.count_cons]
    omega

/-- The replaced object owns a reference to the new value. -/
theorem implPut_sample :
    (sampleMap.get [0x61] = none → true = false →
      implPut 4 true sampleHeap sampleMap [0x61] (some 2) = some (sampleHeap, sampleMap)) ∧
    ((sampleMap.get [0x61]).isSome ∨ true = true → ∃ h' gone,
      implPut 4 true sampleHeap sampleMap [0x61] (some 2) = some (h', sampleMap.put [0x61] (some 2)) ∧
        PutCounts sampleHeap (sampleMap.stored [0x61]) 2 gone h') :=
  implPut_counts (by decide) sampleHeap_sound (by decide) (by decide) (by decide)
    (survives_of_kept (by decide) sampleHeap_sound (by decide) (by decide))

/-- A third object loses a reference when the last reference to the replaced one is given up. -/
theorem implPut_third_object :
    ((implPut 4 true sampleHeap sampleMap [0x61] (some 3)).map fun r => count r.1 2) = some 1 ∧
      count sampleHeap 2 = 2 ∧ sampleMap.stored [0x61] = some 1 := by
  decide

end HashMap
