import LibCore.JsonPrint

/-!
# The JSON Round Trip

A tree of strings, booleans, nulls, arrays and objects, printed by `impl_stringify` and read
back by `parse_JSON`, denotes the same JSON value. A value of JSON is `Value`: its objects
are finite maps, so two trees denote the same value whatever the order, the capacity and the
buckets of their hash maps.

## Main results

* `denote_reread`: the tree that a printable tree is read as denotes the same value.
* `parseJSON_implStringify`: the round trip of a whole tree, without a depth marker.
-/

open CString Utf8

namespace Json

variable {D : Type}

/-! ### The value of a tree -/

/-- JSON values. An object is a map from keys to values. -/
inductive Value (D : Type) where
  | string (s : Bytes)
  | number (d : D)
  | bool (b : Bool)
  | null
  | array (items : List (Value D))
  | object (members : Bytes → Option (Value D))

/-- The node of a map lies below the map. -/
theorem sizeOf_lt_of_mem_entries {m : HashMap (Obj D)} {e : Bytes × Obj D} (he : e ∈ m.entries) :
    sizeOf e.2 < sizeOf m := by
  obtain ⟨c, hc, he⟩ := List.mem_flatten.mp he
  have h1 := List.sizeOf_lt_of_mem hc
  have h2 := List.sizeOf_lt_of_mem he
  obtain ⟨k, v⟩ := e
  cases m with
  | mk buckets size =>
      simp only [HashMap.mk.sizeOf_spec, Prod.mk.sizeOf_spec] at *
      omega

/-- The JSON value a tree denotes. A wrapper denotes what it wraps. -/
def denote : Obj D → Value D
  | .jString s => .string s
  | .jNumber d => .number d
  | .jBool b => .bool b
  | .jNull => .null
  | .arrayList items => .array (items.attach.map fun o => denote o.1)
  | .hashMap map =>
      .object fun k => Chain.find? (· = k) (map.entries.attach.map fun e => (e.1.1, denote e.1.2))
  | .jsonNode _ _ core => denote core
termination_by o => sizeOf o
decreasing_by
  · have := List.sizeOf_lt_of_mem o.2
    simp only [Obj.arrayList.sizeOf_spec]
    omega
  · have := sizeOf_lt_of_mem_entries e.2
    simp only [Obj.hashMap.sizeOf_spec]
    omega
  · simp only [Obj.jsonNode.sizeOf_spec]
    omega

theorem denote_arrayList (items : List (Obj D)) :
    denote (.arrayList items) = .array (items.map denote) := by
  rw [denote, List.attach_map_val (f := denote)]

theorem denote_hashMap (map : HashMap (Obj D)) :
    denote (.hashMap map) =
      .object fun k => Chain.find? (· = k) (map.entries.map fun e => (e.1, denote e.2)) := by
  rw [denote]
  congr 1
  funext k
  exact congrArg _ (List.attach_map_val (f := fun e : Bytes × Obj D => (e.1, denote e.2)))

theorem denote_jsonNode (isObj isArr : Bool) (core : Obj D) :
    denote (.jsonNode isObj isArr core) = denote core := by
  rw [denote]

/-- Two maps with the same members in any order denote the same object. -/
theorem denote_hashMap_congr {m m' : HashMap (Obj D)} (hnodup : (m.entries.map Prod.fst).Nodup)
    (hperm : (m'.entries.map fun e => (e.1, denote e.2)).Perm
      (m.entries.map fun e => (e.1, denote e.2))) :
    denote (.hashMap m') = denote (.hashMap m) := by
  rw [denote_hashMap, denote_hashMap]
  congr 1
  funext k
  have hkeys : ((m.entries.map fun e => (e.1, denote e.2)).map Prod.fst).Nodup := by
    simpa [List.map_map, Function.comp_def] using hnodup
  have hkeys' := (hperm.map Prod.fst).nodup_iff.mpr hkeys
  refine Option.ext fun v => ?_
  have htest : ∀ e : Bytes × Value D, (decide (e.1 = k) = true ↔ e.1 = k) := by simp
  rw [Chain.find?_eq_some_iff_mem (fun e _ => htest e) hkeys',
    Chain.find?_eq_some_iff_mem (fun e _ => htest e) hkeys, hperm.mem_iff]

/-! ### Printable trees -/

/-- A tree of strings, booleans, nulls, arrays and objects whose nodes lie within `levels`
levels: every string and key is a text with a literal below `2 ^ 31` bytes, and the keys of an object
differ within the bytes the hash map compares. -/
def Printable : ℕ → Obj D → Prop
  | 0, _ => False
  | _ + 1, .jString s => IsLiteral s
  | _ + 1, .jNumber _ => False
  | _ + 1, .jBool _ => True
  | _ + 1, .jNull => True
  | levels + 1, .arrayList items => ∀ o ∈ items, Printable levels o
  | levels + 1, .hashMap map =>
      (map.entries.map fun e => e.1.take maxKeyLen).Nodup ∧
        ∀ e ∈ map.entries, IsLiteral e.1 ∧ Printable levels e.2
  | levels + 1, .jsonNode _ _ core => Printable levels core

/-- A printable tree can be printed and read back. -/
theorem Printable.nodes (dbl : Double D) {levels : ℕ} {t : Obj D} (h : Printable levels t) :
    Nodes (fun s => IsLiteral (cstr s)) (ReadsNumber dbl) levels t := by
  have htext : ∀ {s : Bytes}, IsLiteral s → IsLiteral (cstr s) := fun hs => by rwa [hs.1.cstr_eq]
  induction levels generalizing t with
  | zero => exact h.elim
  | succ levels ih =>
      cases t with
      | jString s => exact htext h
      | jNumber d => exact h.elim
      | jBool b => trivial
      | jNull => trivial
      | arrayList items => exact fun o ho => ih (h o ho)
      | hashMap map => exact fun e he => ⟨htext (h.2 e he).1, ih (h.2 e he).2⟩
      | jsonNode o a core => exact ih h

/-! ### Reading objects -/

/-- A key that differs from all present ones within the compared bytes is added. -/
theorem put_entries_perm_of_take_ne {V : Type} {m : HashMap V} (hm : 0 < m.capacity)
    {key : Bytes} (h : ∀ e ∈ m.entries, e.1.take maxKeyLen ≠ key.take maxKeyLen) (v : V) :
    (m.put key v).entries.Perm ((key, v) :: m.entries) := by
  refine (HashMap.put_entries_perm_of_fresh hm (fun e he => ?_) v).1
  rw [Bool.eq_false_iff]
  intro hmatch
  exact h e (HashMap.mem_entries_of_mem_bucket he) (HashMap.keyMatches_iff.mp hmatch)

/-- Members whose keys are different are all in the map afterwards. -/
theorem putMembers_entries_perm (read : Obj D → Obj D) {map : HashMap (Obj D)}
    (hcap : 0 < map.capacity) {nodes : List (Bytes × Obj D)}
    (hkeys : ∀ e ∈ nodes, cstr e.1 = e.1)
    (hnodup : ((nodes ++ map.entries).map fun e => e.1.take maxKeyLen).Nodup) :
    (putMembers read map nodes).entries.Perm
      (nodes.map (fun e => (e.1, read e.2)) ++ map.entries) := by
  induction nodes generalizing map with
  | nil => rfl
  | cons e nodes ih =>
      obtain ⟨key, t⟩ := e
      have hkey : cstr key = key := hkeys (key, t) (by simp)
      have hput : (map.put key (read t)).entries.Perm ((key, read t) :: map.entries) := by
        refine put_entries_perm_of_take_ne hcap (fun e he heq => ?_) _
        rw [List.cons_append, List.map_cons, List.nodup_cons] at hnodup
        exact hnodup.1 (List.mem_map.mpr ⟨e, by simp [he], heq⟩)
      have hnodup' : ((nodes ++ (map.put key (read t)).entries).map
          fun e => e.1.take maxKeyLen).Nodup := by
        refine (List.Perm.nodup_iff ?_).mpr hnodup
        refine ((hput.append_left nodes).map _).trans ?_
        simp only [List.map_append, List.map_cons, List.cons_append]
        exact List.perm_middle
      have hrest := ih (by rwa [HashMap.capacity_put]) (fun e he => hkeys e (by simp [he])) hnodup'
      have hfold : putMembers read map ((key, t) :: nodes) =
          putMembers read (map.put key (read t)) nodes := by
        rw [putMembers, List.foldl_cons, hkey]
        rfl
      rw [hfold]
      refine hrest.trans ?_
      refine (hput.append_left _).trans ?_
      simp only [List.map_cons, List.cons_append]
      exact List.perm_middle

/-! ### The round trip -/

/-- The tree that a printable tree is **read as** denotes the same value. -/
theorem denote_reread (dbl : Double D) {levels : ℕ} {t : Obj D} (h : Printable levels t) :
    denote (reread dbl levels t) = denote t := by
  induction levels generalizing t with
  | zero => exact h.elim
  | succ levels ih =>
      cases t with
      | jString s =>
          have hs : IsText s := h.1
          rw [reread, hs.cstr_eq]
      | jNumber d => exact h.elim
      | jBool b => rw [reread]
      | jNull => rw [reread]
      | arrayList items =>
          have hmap : items.map (denote ∘ reread dbl levels) = items.map denote :=
            List.map_congr_left fun o ho => ih (h o ho)
          rw [reread, denote_arrayList, denote_arrayList, List.map_map, hmap]
      | hashMap map =>
          obtain ⟨hnodup, hnodes⟩ := h
          have hperm := putMembers_entries_perm (reread dbl levels)
            (HashMap.capacity_new_pos 16) (fun e he => (hnodes e he).1.1.cstr_eq)
            (by simpa using hnodup)
          have hmap : (map.entries.map fun e => (e.1, denote (reread dbl levels e.2))) =
              map.entries.map fun e => (e.1, denote e.2) :=
            List.map_congr_left fun e he => by rw [ih (hnodes e he).2]
          rw [reread]
          refine denote_hashMap_congr ?_ ?_
          · refine List.Nodup.of_map (List.take maxKeyLen) ?_
            simpa [List.map_map, Function.comp_def] using hnodup
          · have hdenoted := hperm.map fun e => (e.1, denote e.2)
            simpa [List.map_map, Function.comp_def, hmap] using hdenoted
      | jsonNode o a core =>
          rw [denote_jsonNode, reread]
          exact ih h

/-- The **round trip**: a printable tree with nodes down to depth 64 is printed without the
depth marker (the output is the same for every marker), and what is printed is parsed to a
tree that denotes the same value. -/
theorem parseJSON_implStringify (dbl : Double D) {t : Obj D}
    (h : Printable (maxJsonDepth + 1) t) :
    (∀ marker, stringifyRecursive dbl marker t 0 = implStringify dbl t) ∧
      ∃ root, parseJSON dbl (implStringify dbl t) = .ok root ∧ denote root = denote t := by
  refine ⟨fun marker => stringifyLevels_marker (h.nodes dbl), ?_⟩
  refine ⟨_, parseJSON_stringifyLevels (h.nodes dbl), ?_⟩
  rw [denote_jsonNode, denote_reread dbl h]

/-- An object with one member, an array of a text, a boolean and a null. -/
theorem parseJSON_implStringify_sample :
    let t : Obj ℕ := .hashMap ((HashMap.new 16).put [0x6B]
      (.arrayList [.jString [0xC3, 0xA9, 0x0A], .jBool true, .jNull]))
    ∃ root, parseJSON natDouble (implStringify natDouble t) = .ok root ∧
      denote root = denote t := by
  intro t
  refine (parseJSON_implStringify natDouble (t := t) ?_).2
  have hentries : ((HashMap.new 16).put [0x6B] (.arrayList [.jString [0xC3, 0xA9, 0x0A],
      .jBool true, .jNull]) : HashMap (Obj ℕ)).entries =
        [([0x6B], .arrayList [.jString [0xC3, 0xA9, 0x0A], .jBool true, .jNull])] := rfl
  have htext : IsLiteral [0xC3, 0xA9, 0x0A] := by decide +kernel
  have hkey : IsLiteral [0x6B] := by decide +kernel
  simp [t, maxJsonDepth, Printable, hentries, htext, hkey]

end Json
