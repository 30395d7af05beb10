import LibCore.JsonEquals
import LibCore.JsonHead

/-!
# JSON: Nodes and Entry Points

Nodes that are built with `new_JSON_Object`, `new_JSON_Array`, `put` and `add` hold values and other
nodes, where parsed trees hold values and containers. The printer looks through an inner node, and the
comparison takes it for an unknown object.

`parse_JSON` and `json_parse` call one recursive parser. Only the first looks at what is left behind the
value, and wraps it into a node.

## Main results

* `nodeEquals_built_iff`: the comparison of built nodes works exactly as long as no node lies in another.
* `entryPointsAgree_iff`: the entry points agree exactly where blanks alone follow the value.
-/

open CString

namespace Json

variable {D : Type}

/-! ### Building nodes -/

/-- `new_JSON_Object`. -/
def newJSONObject : Obj D := .jsonNode true false (.hashMap (HashMap.new 16))

/-- `new_JSON_Array`. -/
def newJSONArray : Obj D := .jsonNode false true (.arrayList [])

/-- `node_put`. -/
def nodePut (self : Obj D) (key : Bytes) (val : Obj D) : Obj D :=
  match self with
  | .jsonNode true isArr (.hashMap map) => .jsonNode true isArr (.hashMap (map.put key val))
  | self => self

/-- `node_add`. -/
def nodeAdd (self val : Obj D) : Obj D :=
  match self with
  | .jsonNode isObj true (.arrayList items) => .jsonNode isObj true (.arrayList (items ++ [val]))
  | self => self

/-- `node_get`. -/
def nodeGet (self : Obj D) (key : Bytes) : Option (Obj D) :=
  match self with
  | .jsonNode true _ (.hashMap map) => map.get key
  | _ => none

/-- `node_getStringLen`: the exact bytes of a string. -/
def nodeGetStringLen (self : Obj D) (key : Bytes) : Option Bytes :=
  match nodeGet self key with
  | some (.jString string) => some string
  | _ => none

/-- `is_json_node`. -/
def isJsonNode : Obj D → Bool
  | .jsonNode _ _ _ => true
  | _ => false

/-- Trees that are built by hand, of printable strings with literals below `2 ^ 31` bytes and without
numbers. -/
inductive Built : Obj D → Prop
  | string {s : Bytes} : IsLiteral s → Built (.jString s)
  | bool {b : Bool} : Built (.jBool b)
  | null : Built .jNull
  | newObject : Built newJSONObject
  | newArray : Built newJSONArray
  | put {node val : Obj D} {key : Bytes} : Built node → IsLiteral key → Built val → Built (nodePut node key val)
  | add {node val : Obj D} : Built node → Built val → Built (nodeAdd node val)

/-- What a node holds. -/
def children : Obj D → List (Obj D)
  | .jsonNode _ _ (.arrayList items) => items
  | .jsonNode _ _ (.hashMap map) => map.values
  | _ => []

/-- No node lies in the node. -/
def Flat (t : Obj D) : Prop := ∀ o ∈ children t, isJsonNode o = false

/-- Trees of one structure: the members of an object may have been put in any order. -/
inductive Same : Obj D → Obj D → Prop
  | jString {s : Bytes} : Same (.jString s) (.jString s)
  | jBool {b : Bool} : Same (.jBool b) (.jBool b)
  | jNull : Same .jNull .jNull
  | array {l l' : List (Obj D)} : l.length = l'.length → (∀ p ∈ l.zip l', Same p.1 p.2) →
      Same (.jsonNode false true (.arrayList l)) (.jsonNode false true (.arrayList l'))
  | object {m m' : HashMap (Obj D)} : (m.entries.map Prod.fst).Perm (m'.entries.map Prod.fst) →
      (∀ e ∈ m.entries, ∀ e' ∈ m'.entries, e.1 = e'.1 → Same e.2 e'.2) →
      Same (.jsonNode true false (.hashMap m)) (.jsonNode true false (.hashMap m'))

/-! ### What is built -/

/-- The shape of a built tree. -/
inductive Shape : Obj D → Prop
  | string {s : Bytes} : IsLiteral s → Shape (.jString s)
  | bool {b : Bool} : Shape (.jBool b)
  | null : Shape .jNull
  | array {items : List (Obj D)} : (∀ o ∈ items, Shape o) → Shape (.jsonNode false true (.arrayList items))
  | object {m : HashMap (Obj D)} : m.Spread → m.capacity = 16 → (∀ e ∈ m.entries, IsLiteral e.1) →
      (∀ e ∈ m.entries, Shape e.2) → Shape (.jsonNode true false (.hashMap m))

theorem Built.shape {t : Obj D} (h : Built t) : Shape t := by
  induction h with
  | string hs => exact .string hs
  | bool => exact .bool
  | null => exact .null
  | newObject => exact .object (HashMap.spread_new 16) rfl (by simp) (by simp)
  | newArray => exact .array (by simp)
  | put _ hkey _ ihnode ihval =>
      cases ihnode with
      | string hs => exact .string hs
      | bool => exact .bool
      | null => exact .null
      | array hitems => exact .array hitems
      | object hm hcap hkeys hvals =>
          refine .object (hm.put _ _) (by rw [HashMap.capacity_put, hcap]) (fun e he => ?_) fun e he => ?_
          · rcases mem_entries_put hm.capacity_pos he with hold | ⟨-, hnew | ⟨w, hw⟩⟩
            · exact hkeys e hold
            · rw [hnew]
              exact hkey
            · exact hkeys (e.1, w) hw
          · rcases mem_entries_put hm.capacity_pos he with hold | ⟨hnew, -⟩
            · exact hvals e hold
            · rwa [hnew]
  | add _ _ ihnode ihval =>
      cases ihnode with
      | string hs => exact .string hs
      | bool => exact .bool
      | null => exact .null
      | object hm hcap hkeys hvals => exact .object hm hcap hkeys hvals
      | array hitems =>
          refine .array fun o ho => ?_
          rcases List.mem_append.mp ho with ho | ho
          · exact hitems o ho
          · rwa [List.mem_singleton.mp ho]

/-- Every tree has its own structure. -/
theorem Shape.same {t : Obj D} (h : Shape t) : Same t t := by
  induction h with
  | string => exact .jString
  | bool => exact .jBool
  | null => exact .jNull
  | array _ ih =>
      refine .array rfl fun p hp => ?_
      obtain ⟨i, hi, rfl⟩ := List.mem_iff_getElem.mp hp
      rw [List.getElem_zip]
      exact ih _ (List.getElem_mem _)
  | object hm _ _ _ ih =>
      refine .object .rfl fun e he e' he' hkey => ?_
      rw [List.inj_on_of_nodup_map hm.keys_nodup he' he hkey.symm]
      exact ih e he

/-! ### Comparing built nodes -/

section Equals

variable {eq : D → D → Bool} {t u : Obj D}

/-- What is equal to anything has no node in it. -/
theorem Shape.flat_of_equals (h : Shape t) (heq : nodeEquals eq t u = true) : Flat t := by
  have hinner : ∀ o u : Obj D, implJsonEquals eq o u = true → isJsonNode o = false := by
    intro o u hou
    cases o with
    | jsonNode => rw [implJsonEquals_jsonNode] at hou; cases hou
    | _ => rfl
  cases h with
  | string | bool | null => simp [Flat, children]
  | @array items hitems =>
      cases u with
      | jsonNode isObj isArr core =>
          cases core with
          | arrayList items' =>
              rw [nodeEquals, implJsonEquals_arrayList] at heq
              intro o ho
              obtain ⟨i, hi, rfl⟩ := List.mem_iff_getElem.mp ho
              exact hinner _ _ (List.forall₂_iff_get.mp heq |>.2 i hi (heq.length_eq ▸ hi))
          | _ => simp [nodeEquals, implJsonEquals] at heq
      | _ => simp [nodeEquals] at heq
  | @object m hm hcap hkeys hvals =>
      cases u with
      | jsonNode isObj isArr core =>
          cases core with
          | hashMap m' =>
              rw [nodeEquals, implJsonEquals_hashMap] at heq
              intro o ho
              obtain ⟨e, he, rfl⟩ := List.mem_map.mp ho
              obtain ⟨val, -, hval⟩ := heq.2 e he
              exact hinner _ _ hval
          | _ => simp [nodeEquals, implJsonEquals] at heq
      | _ => simp [nodeEquals] at heq

/-- Values of one structure are equal. -/
theorem Same.equals_of_leaf (h : Same t u) (hleaf : isJsonNode t = false) : implJsonEquals eq t u = true := by
  cases h with
  | jString | jBool | jNull => simp [implJsonEquals]
  | array => cases hleaf
  | object => cases hleaf

/-- Nodes of one structure with no node in them are equal. -/
theorem Same.equals_of_flat (h : Same t u) (hu : Shape u) (hflat : Flat t) (hnode : isJsonNode t = true) :
    nodeEquals eq t u = true := by
  cases h with
  | jString | jBool | jNull => cases hnode
  | @array l l' hlen hitems =>
      rw [nodeEquals, implJsonEquals_arrayList, List.forall₂_iff_zip]
      exact ⟨hlen, fun hab => (hitems _ hab).equals_of_leaf (hflat _ (List.of_mem_zip hab).1)⟩
  | @object m m' hperm hmembers =>
      cases hu with
      | object hm' hcap hkeys hvals =>
          rw [nodeEquals, implJsonEquals_hashMap]
          refine ⟨by simpa using hperm.length_eq, fun e he => ?_⟩
          obtain ⟨e', he', hkey⟩ := List.mem_map.mp (hperm.mem_iff.mp (List.mem_map_of_mem he))
          refine ⟨e'.2, hkey ▸ hm'.get_of_mem he', ?_⟩
          exact (hmembers e he e' he' hkey.symm).equals_of_leaf (hflat _ (List.mem_map_of_mem he))

end Equals

/-! ### Reading built nodes back -/

section Reread

variable {dbl : Double D} {eq : D → D → Bool} {t : Obj D}

/-- A value can be printed at every level, and what is read back is equal to it. -/
theorem Shape.leaf (h : Shape t) (hleaf : isJsonNode t = false) (levels : ℕ) :
    Nodes (fun s => IsLiteral (cstr s)) (ReadsNumber dbl) (levels + 1) t ∧
      implJsonEquals eq t (reread dbl (levels + 1) t) = true := by
  cases h with
  | @string s hs =>
      have htext : IsLiteral (cstr s) := by rwa [hs.1.cstr_eq]
      refine ⟨htext, ?_⟩
      rw [reread, hs.1.cstr_eq]
      simp [implJsonEquals]
  | bool => exact ⟨trivial, by simp [implJsonEquals, reread]⟩
  | null => exact ⟨trivial, by simp [implJsonEquals, reread]⟩
  | array => cases hleaf
  | object => cases hleaf

/-- A node with no node in it is equal to what is read back. -/
theorem Shape.reread (h : Shape t) (hflat : Flat t) (hnode : isJsonNode t = true) :
    ∃ root, parseJSON dbl (nodeToString dbl t) = .ok root ∧ nodeEquals eq t root = true := by
  cases h with
  | string | bool | null => cases hnode
  | @array items hitems =>
      have hleaf (o) (ho : o ∈ items) (levels : ℕ) :
          Nodes (fun s => IsLiteral (cstr s)) (ReadsNumber dbl) (levels + 1) o ∧
            implJsonEquals eq o (Json.reread dbl (levels + 1) o) = true :=
        (hitems o ho).leaf (hflat o ho) levels
      refine ⟨_, parseJSON_stringifyLevels (t := .arrayList items) fun o ho => (hleaf o ho _).1, ?_⟩
      rw [nodeEquals, Json.reread, implJsonEquals_arrayList, List.forall₂_map_right_iff]
      exact List.forall₂_same.mpr fun o ho => (hleaf o ho _).2
  | @object m hm hcap hkeys hvals =>
      have hleaf (e) (he : e ∈ m.entries) (levels : ℕ) :
          Nodes (fun s => IsLiteral (cstr s)) (ReadsNumber dbl) (levels + 1) e.2 ∧
            implJsonEquals eq e.2 (Json.reread dbl (levels + 1) e.2) = true :=
        (hvals e he).leaf (hflat e.2 (List.mem_map_of_mem he)) levels
      refine ⟨_, parseJSON_stringifyLevels (t := .hashMap m) fun e he => ⟨?_, (hleaf e he _).1⟩, ?_⟩
      · change IsLiteral (cstr e.1)
        rw [(hkeys e he).1.cstr_eq]
        exact hkeys e he
      · have hcstr : m.entries.map (fun e => cstr e.1) = m.entries.map Prod.fst :=
          List.map_congr_left fun e he => (hkeys e he).1.cstr_eq
        have happart := hm.apart
        rw [hcap] at happart
        obtain ⟨hspread, hperm⟩ := @HashMap.Spread.foldl_put (Obj D) (Bytes × Obj D) (fun e => cstr e.1)
          (fun e => Json.reread dbl maxJsonDepth e.2) m.entries _ (HashMap.spread_new 16)
          (by rw [hcstr, HashMap.entries_new, List.map_nil, List.append_nil]; exact happart)
        rw [nodeEquals, Json.reread, implJsonEquals_hashMap, putMembers]
        refine ⟨by simpa using hperm.length_eq.symm, fun e he => ?_⟩
        have hmem : (e.1, Json.reread dbl maxJsonDepth e.2) ∈ (m.entries.foldl
            (fun m e => m.put (cstr e.1) (Json.reread dbl maxJsonDepth e.2)) (HashMap.new 16)).entries := by
          refine hperm.mem_iff.mpr (List.mem_append_left _ (List.mem_map.mpr ⟨e, he, ?_⟩))
          rw [(hkeys e he).1.cstr_eq]
        exact ⟨_, hspread.get_of_mem (e := (e.1, Json.reread dbl maxJsonDepth e.2)) hmem, (hleaf e he _).2⟩

end Reread

/-- **Nodes built by hand.** `node_equals` holds of every node of the same structure, and of what is read
back from the printed node, exactly when no node lies in the node. -/
theorem nodeEquals_built_iff (dbl : Double D) (eq : D → D → Bool) {t : Obj D} (h : Built t)
    (hnode : isJsonNode t = true) :
    ((∀ u, Built u → Same t u → nodeEquals eq t u = true) ↔ Flat t) ∧
      ((∃ root, parseJSON dbl (nodeToString dbl t) = .ok root ∧ nodeEquals eq t root = true) ↔ Flat t) := by
  refine ⟨⟨fun hall => ?_, fun hflat u hu hsame => ?_⟩, ⟨?_, fun hflat => ?_⟩⟩
  · exact h.shape.flat_of_equals (hall t h h.shape.same)
  · exact hsame.equals_of_flat hu.shape hflat hnode
  · rintro ⟨root, -, heq⟩
    exact h.shape.flat_of_equals heq
  · exact h.shape.reread hflat hnode

/-- A node with a value in it. -/
theorem nodeEquals_built_sample :
    nodeEquals (fun a b : ℕ => a = b) (nodeAdd newJSONArray (.jBool true)) (nodeAdd newJSONArray (.jBool true)) =
        true ∧
      ∃ root, parseJSON natDouble (nodeToString natDouble (nodeAdd newJSONArray (.jBool true))) = .ok root ∧
        nodeEquals (fun a b : ℕ => a = b) (nodeAdd newJSONArray (.jBool true)) root = true := by
  have hbuilt : Built (nodeAdd newJSONArray (.jBool true) : Obj ℕ) := .add .newArray .bool
  have hflat : Flat (nodeAdd newJSONArray (.jBool true) : Obj ℕ) := by
    intro o ho
    rw [List.mem_singleton.mp ho]
    rfl
  have h := nodeEquals_built_iff natDouble (fun a b : ℕ => a = b) hbuilt rfl
  exact ⟨h.1.mpr hflat _ hbuilt hbuilt.shape.same, h.2.mpr hflat⟩

/-- An array in an array, built twice, is not equal to itself, and not to what is read back. -/
theorem nodeEquals_nested :
    Built (nodeAdd newJSONArray newJSONArray : Obj ℕ) ∧
      nodeEquals (fun a b : ℕ => a = b) (nodeAdd newJSONArray newJSONArray) (nodeAdd newJSONArray newJSONArray) =
        false ∧
      ∃ root, parseJSON natDouble (nodeToString natDouble (nodeAdd newJSONArray newJSONArray)) = .ok root ∧
        nodeEquals (fun a b : ℕ => a = b) (nodeAdd newJSONArray newJSONArray) root = false := by
  have hshape : Shape (nodeAdd newJSONArray newJSONArray : Obj ℕ) := (Built.add .newArray .newArray).shape
  have hfalse : ∀ u : Obj ℕ, nodeEquals (fun a b : ℕ => a = b) (nodeAdd newJSONArray newJSONArray) u = false := by
    intro u
    rw [Bool.eq_false_iff]
    intro heq
    exact absurd (hshape.flat_of_equals heq newJSONArray List.mem_cons_self) (by decide)
  have hparse : ∃ root,
      parseJSON natDouble (nodeToString natDouble (nodeAdd newJSONArray newJSONArray)) = .ok root := ⟨_, rfl⟩
  obtain ⟨root, hroot⟩ := hparse
  exact ⟨.add .newArray .newArray, hfalse _, root, hroot, hfalse root⟩

/-! ### The entry points -/

/-- `json_parse`. -/
def jsonParse (dbl : Double D) (jsonStr : Bytes) : Option (Obj D) :=
  match parseValue dbl (parseFuel (cstr jsonStr)) 0 (cstr jsonStr) with
  | .ok (parsed, _) => some parsed
  | .error _ => none

/-- `core_data` of a node. -/
def coreData : Obj D → Obj D
  | .jsonNode _ _ core => core
  | o => o

/-- Both entry points fail, or both return the same tree. -/
def EntryPointsAgree (dbl : Double D) (s : Bytes) : Prop :=
  jsonParse dbl s = ((parseJSON dbl s).toOption).map coreData

/-- Where the text starts with a value of the language, nothing but blanks stands behind it. -/
def BlankTail (dbl : Double D) (s : Bytes) : Prop :=
  ∀ rest, Starts dbl .value 0 (cstr s) rest → ∀ c ∈ rest, isspace c = true

/-- **The entry points agree** exactly on the texts with a blank tail. -/
theorem entryPointsAgree_iff (dbl : Double D) (s : Bytes) : EntryPointsAgree dbl s ↔ BlankTail dbl s := by
  have hblank : ∀ rest : Bytes, skipWs rest = [] ↔ ∀ c ∈ rest, isspace c = true := fun rest => by
    rw [skipWs, List.dropWhile_eq_nil_iff]
  simp only [BlankTail, ← parseValue_iff_starts]
  by_cases hnil : cstr s = []
  · have hvalue : parseValue dbl (parseFuel (cstr s)) 0 (cstr s) = .error .silent := by
      rw [hnil]
      rfl
    simp only [EntryPointsAgree, jsonParse, parseJSON, hvalue, if_pos hnil]
    simp [Except.toOption]
  · rw [EntryPointsAgree, jsonParse]
    simp only [parseJSON, if_neg hnil]
    cases hvalue : parseValue dbl (parseFuel (cstr s)) 0 (cstr s) with
    | error e => cases e <;> simp [Except.toOption]
    | ok result =>
        obtain ⟨parsed, rest⟩ := result
        by_cases hrest : skipWs rest = []
        · simp [hrest, coreData, Except.toOption, ← hblank]
        · simp [hrest, Except.toOption, ← hblank]

/-- A value with a word behind it is accepted by `json_parse` alone. -/
theorem json_parse_trailing :
    ∃ v, jsonParse natDouble (ascii ['1', ' ', 'x']) = some v ∧
      parseJSON natDouble (ascii ['1', ' ', 'x']) = .error "Garbage data after root element." ∧
      ¬EntryPointsAgree natDouble (ascii ['1', ' ', 'x']) := by
  have hparse : jsonParse natDouble (ascii ['1', ' ', 'x']) = some (.jNumber 1) := rfl
  have hroot : parseJSON natDouble (ascii ['1', ' ', 'x']) = .error "Garbage data after root element." := rfl
  refine ⟨_, hparse, hroot, ?_⟩
  rw [EntryPointsAgree, hparse, hroot]
  simp [Except.toOption]

end Json
