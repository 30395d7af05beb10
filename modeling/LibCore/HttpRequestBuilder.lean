import LibCore.HashMapRefine

/-!
# The Request Bodies of the HTTP Client

`url_encode`, `json_escape`, `build_form_body` and `build_json_body` of `http_request_builder.c`. Both
builders walk the keys of a map and look every value up again, so that their text is a list of items in
the order of the buckets. Allocations succeed.

## Main results

* `joinEntries_eq`: the text is the items of the entries with the separator between them.
-/

open CString

namespace HttpRequestBuilder

/-- The characters `url_encode` leaves as they are. -/
def isUnreserved (c : UInt8) : Bool := isalnum c || c ∈ ascii ['-', '_', '.', '~']

/-- A digit of `%02X`. -/
def upperHex (d : UInt8) : UInt8 := if d < 10 then 0x30 + d else 0x37 + d

/-- A digit of `%04x`. -/
def lowerHex (d : UInt8) : UInt8 := if d < 10 then 0x30 + d else 0x57 + d

/-- A round of the loop of `url_encode`. -/
def urlEncodeByte (c : UInt8) : Bytes :=
  if isUnreserved c then [c] else [0x25, upperHex (c >>> 4), upperHex (c &&& 15)]

/-- `url_encode`. -/
def urlEncode (s : Bytes) : Bytes := s.flatMap urlEncodeByte

/-- A round of the loop of `json_escape`. -/
def jsonEscapeByte (c : UInt8) : Bytes :=
  if c = 0x22 then [0x5C, 0x22]
  else if c = 0x5C then [0x5C, 0x5C]
  else if c = 0x08 then [0x5C, 0x62]
  else if c = 0x0C then [0x5C, 0x66]
  else if c = 0x0A then [0x5C, 0x6E]
  else if c = 0x0D then [0x5C, 0x72]
  else if c = 0x09 then [0x5C, 0x74]
  else if c < 0x20 then [0x5C, 0x75, 0x30, 0x30, lowerHex (c >>> 4), lowerHex (c &&& 15)]
  else [c]

/-- `json_escape`. -/
def jsonEscape (s : Bytes) : Bytes := s.flatMap jsonEscapeByte

/-- The loop over the keys that both builders have: every key is looked up, and a separator stands
before all but the first. -/
def joinEntries (sep : Bytes) (item : Bytes → Bytes → Bytes) (data : HashMap Bytes) : Bytes :=
  data.keys.zipIdx.flatMap fun k =>
    (data.get k.1).elim [] fun v => (if k.2 > 0 then sep else []) ++ item k.1 v

/-- `build_form_body`: `none` for `NULL`. -/
def buildFormBody (data : HashMap Bytes) : Option Bytes :=
  if data.getSize = 0 then none
  else some (joinEntries [0x26] (fun k v => urlEncode k ++ 0x3D :: urlEncode v) data)

/-- `build_json_body`. -/
def buildJsonBody (data : HashMap Bytes) : Bytes :=
  0x7B :: joinEntries [0x2C]
    (fun k v => 0x22 :: jsonEscape k ++ [0x22, 0x3A, 0x22] ++ jsonEscape v ++ [0x22]) data ++ [0x7D]

/-! ### The text of a map -/

theorem intercalate_cons_eq (sep x : Bytes) (xs : List Bytes) :
    sep.intercalate (x :: xs) = x ++ xs.flatMap (sep ++ ·) := by
  induction xs generalizing x with
  | nil => simp [List.intercalate]
  | cons y ys ih =>
      rw [List.intercalate_cons_cons, ih, List.flatMap_cons, List.append_assoc, List.append_assoc]

theorem flatMap_zipIdx_eq {data : HashMap Bytes} (sep : Bytes) (item : Bytes → Bytes → Bytes)
    {es : List (Bytes × Bytes)} (hget : ∀ e ∈ es, data.get e.1 = some e.2) {n : ℕ} (hn : 0 < n) :
    ((es.map Prod.fst).zipIdx n).flatMap (fun k => (data.get k.1).elim [] fun v =>
        (if k.2 > 0 then sep else []) ++ item k.1 v) =
      (es.map fun e => item e.1 e.2).flatMap (sep ++ ·) := by
  induction es generalizing n with
  | nil => rfl
  | cons e es ih =>
      obtain ⟨he, hget⟩ := List.forall_mem_cons.mp hget
      rw [List.map_cons, List.zipIdx_cons, List.flatMap_cons, ih hget (Nat.succ_pos n), List.map_cons,
        List.flatMap_cons]
      simp [he, hn]

/-- The text is the items of the entries, when every entry is found under its key. -/
theorem joinEntries_eq {data : HashMap Bytes} (sep : Bytes) (item : Bytes → Bytes → Bytes)
    (hget : ∀ e ∈ data.entries, data.get e.1 = some e.2) :
    joinEntries sep item data = sep.intercalate (data.entries.map fun e => item e.1 e.2) := by
  rw [joinEntries, HashMap.keys]
  generalize data.entries = es at hget
  cases es with
  | nil => rfl
  | cons e es =>
      obtain ⟨he, hget⟩ := List.forall_mem_cons.mp hget
      rw [List.map_cons, List.zipIdx_cons, List.flatMap_cons,
        flatMap_zipIdx_eq sep item hget (Nat.succ_pos 0), List.map_cons, intercalate_cons_eq]
      simp [he]

end HttpRequestBuilder
