import LibCore.JsonParse

/-!
# Reading Printed Trees

What `parse_JSON` makes of a text that `impl_stringify` printed. A printed literal is read back,
a printed list is read item by item, and a printed value in front of a boundary gives the tree
`reread` names. The printer counts levels down from its limit, the parser counts them up to its
own: a node with `levels` levels left is parsed at a depth of at most `65 - levels`, which is
what makes the two limits agree at the boundary.

## Main definitions

* `IsText`, `IsLiteral`: the texts that are printed and read back.
* `Nodes`: the trees within a number of levels.
* `reread`: the tree that a printed tree is read as.

## Main results

* `parseStringRaw_escape`: a printed literal is read back.
* `parseValue_stringifyLevels`: so is a printed value in front of any boundary.
* `parseJSON_stringifyLevels`: and a whole text.
-/

open CString Utf8

namespace Json

/-! ### String literals -/

/-- The texts that are printed and read back: UTF-8 without control bytes other than the
five that have an escape. -/
def IsText (s : Bytes) : Prop :=
  WellFormed s ∧ ∀ c ∈ s, 0x20 ≤ c ∨ c = 0x08 ∨ c = 0x0C ∨ c = 0x0A ∨ c = 0x0D ∨ c = 0x09

instance : DecidablePred IsText := fun s =>
  inferInstanceAs (Decidable (WellFormed s ∧ ∀ c ∈ s,
    0x20 ≤ c ∨ c = 0x08 ∨ c = 0x0C ∨ c = 0x0A ∨ c = 0x0D ∨ c = 0x09))

/-- A text whose literal `parse_string_raw` can count. -/
def IsLiteral (s : Bytes) : Prop := IsText s ∧ FitsInt (s.flatMap escapeByte).length

instance : DecidablePred IsLiteral := fun _ => inferInstanceAs (Decidable (_ ∧ _))

/-- An escaped byte is itself, or a backslash with a letter that is read back. -/
theorem escapeByte_cases : ∀ c : UInt8,
    (escapeByte c = [c] ∧ c ≠ quote ∧ c ≠ backslash) ∨
      ∃ e ∈ ascii ['"', '\\', 'b', 'f', 'n', 'r', 't'],
        escapeByte c = [backslash, e] ∧ decodeEscape e = c ∧ c < 0x80 := by
  intro c
  rw [escapeByte]
  by_cases h₁ : c = quote
  · rw [if_pos h₁]
    exact .inr ⟨quote, by decide, rfl, h₁.symm, by rw [h₁]; decide⟩
  rw [if_neg h₁]
  by_cases h₂ : c = backslash
  · rw [if_pos h₂]
    exact .inr ⟨backslash, by decide, rfl, h₂.symm, by rw [h₂]; decide⟩
  rw [if_neg h₂]
  split_ifs with h₃ h₄ h₅ h₆ h₇
  · exact .inr ⟨0x62, by decide, rfl, h₃.symm, by rw [h₃]; decide⟩
  · exact .inr ⟨0x66, by decide, rfl, h₄.symm, by rw [h₄]; decide⟩
  · exact .inr ⟨0x6E, by decide, rfl, h₅.symm, by rw [h₅]; decide⟩
  · exact .inr ⟨0x72, by decide, rfl, h₆.symm, by rw [h₆]; decide⟩
  · exact .inr ⟨0x74, by decide, rfl, h₇.symm, by rw [h₇]; decide⟩
  · exact .inl ⟨rfl, h₁, h₂⟩

/-- The first loop passes over the text of one byte. -/
def Passes (text : Bytes) : Prop :=
  ∀ rest, scanString (text ++ rest) = (scanString rest).map fun p => (text ++ p.1, p.2)

theorem passes_plain {c : UInt8} (hq : c ≠ quote) (hb : c ≠ backslash) (hctl : ¬c ≤ 0x1F) :
    Passes [c] := by
  intro rest
  rw [List.singleton_append, scanString.eq_def]
  simp [hq, hb, hctl]

/-- Behind a backslash any byte is passed over. -/
theorem passes_backslash (d : UInt8) : Passes [backslash, d] := by
  intro rest
  rw [List.cons_append, List.singleton_append, scanString, if_neg (by decide), if_pos rfl]
  rfl

theorem Passes.append {s t : Bytes} (hs : Passes s) (ht : Passes t) : Passes (s ++ t) := by
  intro rest
  rw [List.append_assoc, hs, ht]
  cases scanString rest <;> simp [Except.map]

/-- The first loop finds the closing quote of a literal whose bytes are written by `esc`. -/
theorem scanString_flatMap {esc : UInt8 → Bytes} {s : Bytes} (hs : ∀ c ∈ s, Passes (esc c))
    (rest : Bytes) : scanString (s.flatMap esc ++ quote :: rest) = .ok (s.flatMap esc, rest) := by
  induction s with
  | nil => rw [List.flatMap_nil, List.nil_append, scanString.eq_def]; simp
  | cons c s ih =>
      obtain ⟨hc, hs⟩ := List.forall_mem_cons.mp hs
      rw [List.flatMap_cons, List.append_assoc, hc, ih hs]
      rfl

/-- The bytes of a printed literal are passed over. -/
theorem passes_escapeByte {c : UInt8}
    (hc : 0x20 ≤ c ∨ c = 0x08 ∨ c = 0x0C ∨ c = 0x0A ∨ c = 0x0D ∨ c = 0x09) :
    Passes (escapeByte c) := by
  rcases escapeByte_cases c with ⟨he, hq, hb⟩ | ⟨e, -, he, -, -⟩
  · have hctl : ¬c ≤ 0x1F := by
      have hesc : ∀ x : UInt8, x = 0x08 ∨ x = 0x0C ∨ x = 0x0A ∨ x = 0x0D ∨ x = 0x09 →
          escapeByte x ≠ [x] := by
        rintro x (rfl | rfl | rfl | rfl | rfl) <;> decide
      rcases hc with h | h
      · grind
      · exact absurd he (hesc c h)
    rw [he]
    exact passes_plain hq hb hctl
  · rw [he]
    exact passes_backslash e

/-- A multi-byte character passes the checks of the second loop. -/
theorem decodeSequence_isChar {a : UInt8} {c : Bytes} (hc : IsChar (a :: c)) (ha : 0x80 ≤ a)
    (rest : Bytes) : decodeSequence a (c ++ rest) = .ok (a :: c, rest) := by
  have hcopy : ∀ n, (a :: c).length = n →
      copySequence n (a :: (c ++ rest)) = .ok (a :: c, rest) := by
    rintro n rfl
    have htail : ∀ b ∈ c, isCont b = true := by
      intro b hb
      obtain ⟨c₁, c₂, rfl⟩ := List.append_of_mem hb
      exact (isCont_iff b).mpr (IsChar.isTail_of_append (p := a :: c₁) hc (by simp))
    have htake : (a :: (c ++ rest)).take (a :: c).length = a :: c := by simp
    have hdrop : (a :: (c ++ rest)).drop (a :: c).length = rest := by simp
    simp only [copySequence, htake, hdrop]
    rw [if_neg (by simp), if_neg (by simpa using htail)]
  simp only [decodeSequence, (lead_masks a).1, (lead_masks a).2.1, (lead_masks a).2.2]
  rcases hc.cases with ⟨x, he, hx⟩ | ⟨x, b, he, hx⟩ | ⟨x, b, d, he, hx⟩ | ⟨x, b, d, e, he, hx⟩
  all_goals
    obtain ⟨rfl, rfl⟩ := List.cons.inj he
    try simp only [IsSecond, IsTail] at hx
  · grind
  · rw [if_pos (by grind), if_neg (by grind), hcopy 2 rfl]
  · rw [if_neg (by grind), if_pos (by grind), if_neg (by simp; grind), if_neg (by simp; grind),
      hcopy 3 rfl]
  · rw [if_neg (by grind), if_neg (by grind), if_pos (by grind), if_neg (by grind),
      if_neg (by simp; grind), if_neg (by simp; grind), hcopy 4 rfl]

/-- An ASCII character has no second byte. -/
theorem eq_nil_of_isChar {a : UInt8} {t : Bytes} (hc : IsChar (a :: t)) (ha : ¬0x80 ≤ a) : t = [] := by
  rcases hc.cases with ⟨x, he, -⟩ | ⟨x, b, he, hx⟩ | ⟨x, b, d, he, hx⟩ | ⟨x, b, d, e, he, hx⟩
  · exact (List.cons.inj he).2
  all_goals
    obtain ⟨rfl, -⟩ := List.cons.inj he
    grind

/-- How the bytes of a literal are written: those of multi-byte characters as they are, and an
ASCII character so that one round of the second loop reads it back. -/
structure Escapes (esc : UInt8 → Bytes) : Prop where
  high : ∀ b, 0x80 ≤ b → esc b = [b]
  ne_nil : ∀ b, esc b ≠ []
  low : ∀ a, ¬0x80 ≤ a → ∀ rest, decodeStep (esc a ++ rest) = .ok ([a], rest)

/-- One round of the second loop reads one character. -/
theorem Escapes.decodeStep_char {esc : UInt8 → Bytes} (hesc : Escapes esc) {c : Bytes}
    (hc : IsChar c) (rest : Bytes) : decodeStep (c.flatMap esc ++ rest) = .ok (c, rest) := by
  obtain ⟨a, t, rfl⟩ := List.exists_cons_of_ne_nil hc.ne_nil
  by_cases ha : 0x80 ≤ a
  · have hhigh : ∀ b ∈ a :: t, esc b = [b] := by
      intro b hb
      rcases List.mem_cons.mp hb with rfl | hb
      · exact hesc.high _ ha
      · obtain ⟨c₁, c₂, rfl⟩ := List.append_of_mem hb
        exact hesc.high b (IsChar.isTail_of_append (p := a :: c₁) hc (by simp)).1
    have hb : a ≠ backslash := by rintro rfl; exact absurd ha (by decide)
    rw [List.flatMap_congr hhigh, List.flatMap_singleton', List.cons_append, decodeStep.eq_def]
    simp only [hb, if_false, ha, if_true]
    exact decodeSequence_isChar hc ha rest
  · -- an ASCII character is one byte
    obtain rfl : t = [] := eq_nil_of_isChar hc ha
    rw [List.flatMap_singleton]
    exact hesc.low a ha rest

/-- The second loop reads a text back. -/
theorem Escapes.decodeLoop_flatMap {esc : UInt8 → Bytes} (hesc : Escapes esc) {s : Bytes}
    (hs : WellFormed s) {fuel : ℕ} (hf : (s.flatMap esc).length ≤ fuel) :
    decodeLoop fuel (s.flatMap esc) = .ok s := by
  induction hs generalizing fuel with
  | nil => simp [decodeLoop]
  | @cons c s hc _ ih =>
      have hstep := hesc.decodeStep_char hc (s.flatMap esc)
      rw [List.flatMap_append] at hf ⊢
      obtain ⟨x, t, hxt⟩ : ∃ x t, c.flatMap esc ++ s.flatMap esc = x :: t := by
        obtain ⟨a, t, rfl⟩ := List.exists_cons_of_ne_nil hc.ne_nil
        refine List.exists_cons_of_ne_nil ?_
        simp [hesc.ne_nil a]
      have hlt := (decodeStep_cases (by rw [hxt]; simp) hstep).1
      cases fuel with
      | zero => rw [hxt] at hf; simp at hf
      | succ fuel =>
          rw [hxt] at hf hstep hlt ⊢
          rw [decodeLoop, hstep]
          simp only
          rw [ih (by omega)]
          rfl

/-- A **literal** is read back. -/
theorem Escapes.parseStringRaw_flatMap {esc : UInt8 → Bytes} (hesc : Escapes esc) {s : Bytes}
    (hs : WellFormed s) (hpass : ∀ c ∈ s, Passes (esc c)) (hfits : FitsInt (s.flatMap esc).length)
    (rest : Bytes) : parseStringRaw (s.flatMap esc ++ quote :: rest) = .ok (s, rest) :=
  parseStringRaw_ok_iff.mpr
    ⟨_, scanString_flatMap hpass rest, hfits, hesc.decodeLoop_flatMap hs (le_refl _)⟩

theorem escapes_escapeByte : Escapes escapeByte where
  high := by grind [escapeByte]
  ne_nil b := by rcases escapeByte_cases b with ⟨he, -⟩ | ⟨e, -, he, -⟩ <;> rw [he] <;> simp
  low a ha rest := by
    rcases escapeByte_cases a with ⟨he, -, hb⟩ | ⟨e, hmem, he, hdec, -⟩
    · rw [he, List.singleton_append, decodeStep.eq_def]
      simp [hb, ha]
    · have hu : e ≠ 0x75 := by
        rintro rfl
        exact absurd hmem (by decide)
      rw [he]
      simp [decodeStep, hu, hdec]

/-- A printed **literal** is read back. -/
theorem parseStringRaw_escape {s : Bytes} (hs : IsLiteral s) (rest : Bytes) :
    parseStringRaw (s.flatMap escapeByte ++ quote :: rest) = .ok (s, rest) :=
  escapes_escapeByte.parseStringRaw_flatMap hs.1.1 (fun c hc => passes_escapeByte (hs.1.2 c hc)) hs.2 rest

/-- A text has no NUL, so it is its own C string. -/
theorem IsText.cstr_eq {s : Bytes} (hs : IsText s) : cstr s = s := by
  refine List.takeWhile_eq_self_iff.mpr fun c hc => ?_
  have hne : c ≠ 0 := by
    rintro rfl
    exact absurd (hs.2 0 hc) (by decide)
  simpa using hne

variable {D : Type} {dbl : Double D} {marker : Bytes}

/-! ### Trees -/

/-- A tree within `levels` levels: every string and key satisfies `P`, every number `Q`. -/
def Nodes (P : Bytes → Prop) (Q : D → Prop) : ℕ → Obj D → Prop
  | 0, _ => False
  | _ + 1, .jString s => P s
  | _ + 1, .jNumber d => Q d
  | _ + 1, .jBool _ => True
  | _ + 1, .jNull => True
  | levels + 1, .arrayList items => ∀ o ∈ items, Nodes P Q levels o
  | levels + 1, .hashMap map => ∀ e ∈ map.entries, P e.1 ∧ Nodes P Q levels e.2
  | levels + 1, .jsonNode _ _ core => Nodes P Q levels core

/-- A tree within the levels does not reach the marker, so the output does not depend on it. -/
theorem stringifyLevels_marker {P : Bytes → Prop} {Q : D → Prop} {levels : ℕ} {t : Obj D}
    (h : Nodes P Q levels t) :
    stringifyLevels dbl marker levels t = stringifyLevels dbl depthMarker levels t := by
  induction levels generalizing t with
  | zero => exact h.elim
  | succ levels ih =>
      cases t with
      | jString s => rfl
      | jNumber d => rfl
      | jBool b => rfl
      | jNull => rfl
      | arrayList items =>
          have hmap : items.map (stringifyLevels dbl marker levels) =
              items.map (stringifyLevels dbl depthMarker levels) :=
            List.map_congr_left fun o ho => ih (h o ho)
          simp only [stringifyLevels, hmap]
      | hashMap map =>
          have hmap : (map.entries.map fun node =>
                sbAppendEscaped node.1 ++ 0x3A :: stringifyLevels dbl marker levels node.2) =
              map.entries.map fun node =>
                sbAppendEscaped node.1 ++ 0x3A :: stringifyLevels dbl depthMarker levels node.2 :=
            List.map_congr_left fun e he => by rw [ih (h e he).2]
          simp only [stringifyLevels, hmap]
      | jsonNode o a core => exact ih h

/-- A printed literal in front of a text. -/
theorem sbAppendEscaped_append (s rest : Bytes) :
    sbAppendEscaped s ++ rest = quote :: ((cstr s).flatMap escapeByte ++ quote :: rest) := by
  simp [sbAppendEscaped]

/-- A number whose text starts like one and has no NUL. -/
def StartsNumber (dbl : Double D) (d : D) : Prop :=
  (∃ c s, dbl.formatG d = c :: s ∧ (c = 0x2D || isdigit c) = true) ∧ 0 ∉ dbl.formatG d

/-- A printed value starts with a byte that is neither blank nor a closing bracket. -/
theorem stringifyLevels_head {P : Bytes → Prop} {Q : D → Prop} {levels : ℕ} {t : Obj D}
    (hnum : ∀ d, Q d → StartsNumber dbl d) (h : Nodes P Q levels t) :
    ∃ c s, stringifyLevels dbl depthMarker levels t = c :: s ∧ isspace c = false ∧ c ≠ 0x5D := by
  have hclass : ∀ c : UInt8, (c = 0x2D || isdigit c) = true → isspace c = false ∧ c ≠ 0x5D := by
    grind
  induction levels generalizing t with
  | zero => exact h.elim
  | succ levels ih =>
      cases t with
      | jString s => exact ⟨_, _, rfl, rfl, by decide⟩
      | jNumber d =>
          obtain ⟨⟨c, s, hprint, hc⟩, -⟩ := hnum d h
          exact ⟨c, s, hprint, hclass c hc⟩
      | jBool b => cases b <;> exact ⟨_, _, rfl, rfl, by decide⟩
      | jNull => exact ⟨_, _, rfl, rfl, by decide⟩
      | arrayList items => exact ⟨_, _, rfl, rfl, by decide⟩
      | hashMap map => exact ⟨_, _, rfl, rfl, by decide⟩
      | jsonNode o a core => exact ih h

/-- A separated list starts with its first item. -/
theorem commaSeparated_head {c : UInt8} {s : Bytes} (items : List Bytes) (rest : Bytes) :
    ∃ s', commaSeparated ((c :: s) :: items) ++ rest = c :: s' := by
  cases items <;> exact ⟨_, rfl⟩

theorem skipWs_cons {c : UInt8} (hc : isspace c = false) (s : Bytes) :
    skipWs (c :: s) = c :: s := by
  simp [skipWs, hc]

/-! ### Reading arrays

The loops of the parser on printed text, one round at a time. -/

theorem parseElements_close (fuel depth : ℕ) (list : List (Obj D)) (rest : Bytes) :
    parseElements dbl (fuel + 1) depth list (0x5D :: rest) = .ok (.arrayList list, rest) := by
  rw [parseElements, if_neg (by simp), skipWs_cons rfl]
  simp

theorem parseElements_comma {fuel depth : ℕ} {list : List (Obj D)} {c d : UInt8} {s s' : Bytes}
    {val : Obj D} (hc : isspace c = false) (hc' : c ≠ 0x5D) (hd : isspace d = false)
    (hd' : d ≠ 0x5D) (hval : parseValue dbl fuel depth (c :: s) = .ok (val, comma :: d :: s')) :
    parseElements dbl (fuel + 1) depth list (c :: s) =
      parseElements dbl fuel depth (list ++ [val]) (d :: s') := by
  rw [parseElements, if_neg (by simp), skipWs_cons hc, if_neg (by simpa using hc'), hval]
  simp only
  rw [skipWs_cons rfl]
  simp only [if_true]
  rw [skipWs_cons hd, if_neg (by simpa using hd')]

theorem parseElements_last {fuel depth : ℕ} {list : List (Obj D)} {c : UInt8} {s rest : Bytes}
    {val : Obj D} (hc : isspace c = false) (hc' : c ≠ 0x5D)
    (hval : parseValue dbl fuel depth (c :: s) = .ok (val, 0x5D :: rest)) :
    parseElements dbl (fuel + 1) depth list (c :: s) =
      parseElements dbl fuel depth (list ++ [val]) (0x5D :: rest) := by
  rw [parseElements, if_neg (by simp), skipWs_cons hc, if_neg (by simpa using hc'), hval]
  simp only
  rw [skipWs_cons rfl]
  simp only [ne_eq, not_true_eq_false, if_false]
  rw [if_neg (by decide)]

/-- The loop of `parse_array` reads items one by one, if each of them can be read. -/
theorem parseElements_commaSeparated {α : Type} (text : α → Bytes) {read : α → Obj D} {depth : ℕ}
    (rest : Bytes) (items : List α)
    (hhead : ∀ a ∈ items, ∃ c s, text a = c :: s ∧ isspace c = false ∧ c ≠ 0x5D)
    (hread : ∀ a ∈ items, ∀ fuel rest, isValidBoundary rest = true →
      2 * (text a ++ rest).length + 1 ≤ fuel →
      parseValue dbl fuel depth (text a ++ rest) = .ok (read a, rest))
    (list : List (Obj D)) (fuel : ℕ)
    (hf : 2 * (commaSeparated (items.map text) ++ 0x5D :: rest).length + 2 ≤ fuel) :
    parseElements dbl fuel depth list (commaSeparated (items.map text) ++ 0x5D :: rest) =
      .ok (.arrayList (list ++ items.map read), rest) := by
  obtain ⟨fuel, rfl⟩ : ∃ k, fuel = k + 1 := ⟨fuel - 1, by omega⟩
  induction items generalizing list fuel with
  | nil =>
      rw [List.map_nil, commaSeparated, List.nil_append, parseElements_close, List.map_nil,
        List.append_nil]
  | cons t items iht =>
      obtain ⟨c, s, hprint, hc, hc'⟩ := hhead t (by simp)
      obtain ⟨fuel, rfl⟩ : ∃ k, fuel = k + 1 := ⟨fuel - 1, by omega⟩
      cases items with
      | nil =>
          simp only [List.map_cons, List.map_nil, commaSeparated] at hf ⊢
          have hv := hread t (by simp) (fuel + 1) (0x5D :: rest) rfl (by omega)
          rw [hprint, List.cons_append] at hv ⊢
          rw [parseElements_last hc hc' hv, parseElements_close]
      | cons u items =>
          obtain ⟨d, s', hprint', hd, hd'⟩ := hhead u (by simp)
          obtain ⟨more, hmore⟩ := commaSeparated_head (c := d) (s := s')
            (items.map text) (0x5D :: rest)
          rw [← hprint'] at hmore
          have iht := iht (fun o ho => hhead o (by simp [ho])) (fun o ho => hread o (by simp [ho]))
          simp only [List.map_cons, commaSeparated, List.append_assoc, List.cons_append] at hf iht ⊢
          rw [hmore] at hf iht ⊢
          -- the first item, then the items behind the comma
          have hv := hread t (by simp) (fuel + 1) (comma :: d :: more) rfl (by omega)
          have hvs := iht (list ++ [read t]) fuel (by
            simp only [List.length_append, List.length_cons] at hf ⊢
            omega)
          rw [hprint, List.cons_append] at hv ⊢
          rw [parseElements_comma hc hc' hd hd' hv, hvs, List.append_assoc]
          rfl

/-! ### Reading objects -/

/-- A member as the printer writes it. -/
def memberText (dbl : Double D) (levels : ℕ) (node : Bytes × Obj D) : Bytes :=
  sbAppendEscaped node.1 ++ 0x3A :: stringifyLevels dbl depthMarker levels node.2

theorem parseMembers_close (fuel depth : ℕ) (map : HashMap (Obj D)) (rest : Bytes) :
    parseMembers dbl (fuel + 1) depth map (0x7D :: rest) = .ok (.hashMap map, rest) := by
  rw [parseMembers, if_neg (by simp), skipWs_cons rfl]
  simp

theorem parseMembers_comma {fuel depth : ℕ} {map : HashMap (Obj D)} {key text s s' : Bytes}
    {val : Obj D} (hkey : parseStringRaw text = .ok (key, 0x3A :: s))
    (hval : parseValue dbl fuel depth s = .ok (val, comma :: quote :: s')) :
    parseMembers dbl (fuel + 1) depth map (quote :: text) =
      parseMembers dbl fuel depth (map.put (cstr key) val) (quote :: s') := by
  rw [parseMembers, if_neg (by simp), skipWs_cons rfl]
  simp only
  rw [if_neg (by decide), if_neg (by simp), hkey]
  simp only
  rw [skipWs_cons rfl]
  simp only [ne_eq, not_true_eq_false, if_false, hval]
  rw [skipWs_cons rfl]
  simp only [if_true]
  rw [skipWs_cons rfl, if_neg (by rw [List.head?_cons]; decide)]

theorem parseMembers_last {fuel depth : ℕ} {map : HashMap (Obj D)} {key text s rest : Bytes}
    {val : Obj D} (hkey : parseStringRaw text = .ok (key, 0x3A :: s))
    (hval : parseValue dbl fuel depth s = .ok (val, 0x7D :: rest)) :
    parseMembers dbl (fuel + 1) depth map (quote :: text) =
      parseMembers dbl fuel depth (map.put (cstr key) val) (0x7D :: rest) := by
  rw [parseMembers, if_neg (by simp), skipWs_cons rfl]
  simp only
  rw [if_neg (by decide), if_neg (by simp), hkey]
  simp only
  rw [skipWs_cons rfl]
  simp only [ne_eq, not_true_eq_false, if_false, hval]
  rw [skipWs_cons rfl]
  simp only [not_true_eq_false, if_false]
  rw [if_neg (by decide)]

/-- The members of an object, put into a map one after the other. -/
def putMembers (read : Obj D → Obj D) (map : HashMap (Obj D)) (nodes : List (Bytes × Obj D)) :
    HashMap (Obj D) :=
  nodes.foldl (fun m e => m.put (cstr e.1) (read e.2)) map

/-- The text of a member, from the text of its key and that of its value. -/
def joinMember (keyText valueText : Bytes) : Bytes :=
  quote :: (keyText ++ quote :: 0x3A :: valueText)

/-- The loop of `parse_object` reads members one by one, if each key and each value can be read. -/
theorem parseMembers_commaSeparated {α : Type} {keyText valueText key : α → Bytes} {read : α → Obj D}
    {depth : ℕ} (rest : Bytes) (nodes : List α)
    (hkey : ∀ a ∈ nodes, ∀ rest, parseStringRaw (keyText a ++ quote :: rest) = .ok (key a, rest))
    (hread : ∀ a ∈ nodes, ∀ fuel rest, isValidBoundary rest = true →
      2 * (valueText a ++ rest).length + 1 ≤ fuel →
      parseValue dbl fuel depth (valueText a ++ rest) = .ok (read a, rest))
    (map : HashMap (Obj D)) (fuel : ℕ)
    (hf : 2 * (commaSeparated (nodes.map fun a => joinMember (keyText a) (valueText a)) ++
      0x7D :: rest).length + 2 ≤ fuel) :
    parseMembers dbl fuel depth map
        (commaSeparated (nodes.map fun a => joinMember (keyText a) (valueText a)) ++ 0x7D :: rest) =
      .ok (.hashMap (nodes.foldl (fun m a => m.put (cstr (key a)) (read a)) map), rest) := by
  obtain ⟨fuel, rfl⟩ : ∃ k, fuel = k + 1 := ⟨fuel - 1, by omega⟩
  induction nodes generalizing map fuel with
  | nil =>
      rw [List.map_nil, commaSeparated, List.nil_append, parseMembers_close]
      rfl
  | cons a nodes iht =>
      obtain ⟨fuel, rfl⟩ : ∃ k, fuel = k + 1 := ⟨fuel - 1, by omega⟩
      obtain ⟨hkey₁, hkey⟩ := List.forall_mem_cons.mp hkey
      obtain ⟨hread₁, hread⟩ := List.forall_mem_cons.mp hread
      cases nodes with
      | nil =>
          simp only [List.map_cons, List.map_nil, commaSeparated, joinMember, List.append_assoc,
            List.cons_append] at hf ⊢
          have hv := hread₁ (fuel + 1) (0x7D :: rest) rfl (by
            simp only [List.length_append, List.length_cons] at hf ⊢
            omega)
          rw [parseMembers_last (hkey₁ _) hv, parseMembers_close]
          rfl
      | cons a' nodes =>
          obtain ⟨more, hmore⟩ := commaSeparated_head (c := quote)
            (s := keyText a' ++ quote :: 0x3A :: valueText a')
            (nodes.map fun a => joinMember (keyText a) (valueText a)) (0x7D :: rest)
          have hmember' : quote :: (keyText a' ++ quote :: 0x3A :: valueText a') =
              joinMember (keyText a') (valueText a') := rfl
          have iht := iht hkey hread
          rw [hmember'] at hmore
          simp only [List.map_cons, commaSeparated, List.append_assoc, List.cons_append] at hf iht ⊢
          rw [hmore] at hf iht ⊢
          simp only [joinMember, List.append_assoc, List.cons_append] at hf ⊢
          have hv := hread₁ (fuel + 1) (comma :: quote :: more) rfl (by
            simp only [List.length_append, List.length_cons] at hf ⊢
            omega)
          have hrest := iht (map.put (cstr (key a)) (read a)) fuel (by
            simp only [List.length_append, List.length_cons] at hf ⊢
            omega)
          rw [parseMembers_comma (hkey₁ _) hv, hrest]
          rfl

/-! ### Reading values -/

theorem boolText_true : boolText true = [0x74, 0x72, 0x75, 0x65] := rfl

theorem boolText_false : boolText false = [0x66, 0x61, 0x6C, 0x73, 0x65] := rfl

theorem nullText_eq : nullText = [0x6E, 0x75, 0x6C, 0x6C] := rfl

/-- The words start with a letter that leads `parse_value` to them. -/
theorem parseValue_word {fuel depth : ℕ} (hd : ¬depth > maxJsonDepth) {c : UInt8}
    (hc : c = 0x74 ∨ c = 0x66 ∨ c = 0x6E) (s : Bytes) :
    parseValue dbl (fuel + 1) depth (c :: s) = parseWord (c :: s) := by
  have hclass : isspace c = false ∧ c ≠ quote ∧ (c = 0x2D || isdigit c) = false ∧ c ≠ 0x7B ∧
      c ≠ 0x5B := by
    rcases hc with rfl | rfl | rfl <;> decide
  obtain ⟨hsp, hq, hnum, hobj, harr⟩ := hclass
  rw [parseValue, if_neg hd, skipWs_cons hsp]
  simp only
  rw [if_neg hq, if_neg (by rw [hnum]; simp), if_neg hobj, if_neg harr]

/-- A printed boolean is read back. -/
theorem parseWord_boolText {rest : Bytes} (hrest : isValidBoundary rest = true) (b : Bool) :
    parseWord (boolText b ++ rest) = .ok ((.jBool b : Obj D), rest) := by
  cases b <;>
    simp [parseWord, boolText_true, boolText_false, strncmpEq, hrest]

/-- A printed null is read back. -/
theorem parseWord_nullText {rest : Bytes} (hrest : isValidBoundary rest = true) :
    parseWord (nullText ++ rest) = .ok ((.jNull : Obj D), rest) := by
  simp [parseWord, boolText_true, boolText_false, nullText_eq, strncmpEq, hrest]

/-- A printed number in front of a boundary is read whole. -/
def ReadsNumber (dbl : Double D) (d : D) : Prop :=
  StartsNumber dbl d ∧ ∀ rest, isValidBoundary rest = true →
    parseNumber dbl (dbl.formatG d ++ rest) =
      .ok (.jNumber (dbl.strtod (dbl.formatG d)).1, rest)

/-- The tree that a printed tree is read as. -/
def reread (dbl : Double D) : ℕ → Obj D → Obj D
  | 0, t => t
  | _ + 1, .jString s => .jString (cstr s)
  | _ + 1, .jNumber d => .jNumber (dbl.strtod (dbl.formatG d)).1
  | _ + 1, .jBool b => .jBool b
  | _ + 1, .jNull => .jNull
  | levels + 1, .arrayList items => .arrayList (items.map (reread dbl levels))
  | levels + 1, .hashMap map =>
      .hashMap (putMembers (reread dbl levels) (HashMap.new 16) map.entries)
  | levels + 1, .jsonNode _ _ core => reread dbl levels core

theorem parseValue_array {fuel depth : ℕ} (hd : ¬depth > maxJsonDepth) (s : Bytes) :
    parseValue dbl (fuel + 1) depth (0x5B :: s) = parseElements dbl fuel (depth + 1) [] s := by
  rw [parseValue, if_neg hd, skipWs_cons rfl]
  simp only
  rw [if_neg (by decide), if_neg (by decide), if_neg (by decide), if_pos trivial]

theorem parseValue_object {fuel depth : ℕ} (hd : ¬depth > maxJsonDepth) (s : Bytes) :
    parseValue dbl (fuel + 1) depth (0x7B :: s) =
      parseMembers dbl fuel (depth + 1) (HashMap.new 16) s := by
  rw [parseValue, if_neg hd, skipWs_cons rfl]
  simp only
  rw [if_neg (by decide), if_neg (by decide), if_pos trivial]

/-- Numbers start with a byte that leads `parse_value` to them. -/
theorem parseValue_number {fuel depth : ℕ} (hd : ¬depth > maxJsonDepth) {c : UInt8}
    (hc : (c = 0x2D || isdigit c) = true) (s : Bytes) :
    parseValue dbl (fuel + 1) depth (c :: s) = parseNumber dbl (c :: s) := by
  have hclass : ∀ c : UInt8, (c = 0x2D || isdigit c) = true → isspace c = false ∧ c ≠ quote := by
    grind
  obtain ⟨hsp, hq⟩ := hclass c hc
  rw [parseValue, if_neg hd, skipWs_cons hsp]
  simp only
  rw [if_neg hq, if_pos hc]

/-- A printed value in front of a boundary is **read back**, by induction on the levels. -/
theorem parseValue_stringifyLevels {levels depth fuel : ℕ} {t : Obj D} {rest : Bytes}
    (h : Nodes (fun s => IsLiteral (cstr s)) (ReadsNumber dbl) levels t)
    (hdepth : depth + levels ≤ maxJsonDepth + 1) (hrest : isValidBoundary rest = true)
    (hf : 2 * (stringifyLevels dbl depthMarker levels t ++ rest).length + 1 ≤ fuel) :
    parseValue dbl fuel depth (stringifyLevels dbl depthMarker levels t ++ rest) =
      .ok (reread dbl levels t, rest) := by
  induction levels generalizing t depth fuel rest with
  | zero => exact h.elim
  | succ levels ih =>
      obtain ⟨fuel, rfl⟩ : ∃ k, fuel = k + 1 := ⟨fuel - 1, by omega⟩
      have hd : ¬depth > maxJsonDepth := by omega
      have hd' : depth + 1 + levels ≤ maxJsonDepth + 1 := by omega
      cases t with
      | jString s =>
          rw [stringifyLevels, sbAppendEscaped_append, parseValue, if_neg hd,
            skipWs_cons rfl]
          simp only [if_true, parseStringRaw_escape h, reread]
      | jNumber d =>
          obtain ⟨⟨⟨c, s, hprint, hc⟩, -⟩, hread⟩ := h
          have hnumber := hread rest hrest
          simp only [stringifyLevels, reread]
          rw [hprint, List.cons_append] at hnumber ⊢
          rw [parseValue_number hd hc, hnumber]
      | jBool b =>
          rw [stringifyLevels, reread, ← parseWord_boolText hrest b]
          cases b
          · rw [boolText_false]
            exact parseValue_word hd (by simp) _
          · rw [boolText_true]
            exact parseValue_word hd (by simp) _
      | jNull =>
          rw [stringifyLevels, reread, ← parseWord_nullText hrest, nullText_eq]
          exact parseValue_word hd (by simp) _
      | arrayList items =>
          simp only [stringifyLevels, List.cons_append, List.append_assoc, List.nil_append,
            List.length_cons] at hf ⊢
          have hitems : parseElements dbl fuel (depth + 1) []
              (commaSeparated (items.map (stringifyLevels dbl depthMarker levels)) ++
                0x5D :: rest) = .ok (.arrayList ([] ++ items.map (reread dbl levels)), rest) :=
            parseElements_commaSeparated (stringifyLevels dbl depthMarker levels) rest items
              (fun o ho => stringifyLevels_head (fun d hd => hd.1) (h o ho))
              (fun o ho fuel rest hrest hf => ih (h o ho) hd' hrest hf) [] fuel (by omega)
          rw [parseValue_array hd, hitems, List.nil_append, reread]
      | hashMap map =>
          have hprint : stringifyLevels dbl depthMarker (levels + 1) (.hashMap map) ++ rest =
              0x7B :: (commaSeparated (map.entries.map fun e =>
                joinMember ((cstr e.1).flatMap escapeByte)
                  (stringifyLevels dbl depthMarker levels e.2)) ++ 0x7D :: rest) := by
            simp only [stringifyLevels, sbAppendEscaped_append, joinMember, List.cons_append,
              List.append_assoc, List.nil_append]
          rw [hprint, List.length_cons] at hf
          rw [hprint, parseValue_object hd, parseMembers_commaSeparated rest map.entries
            (fun e he rest => parseStringRaw_escape (h e he).1 rest)
            (fun e he fuel rest hrest hf => ih (h e he).2 hd' hrest hf) (HashMap.new 16) fuel
            (by omega), reread, putMembers]
          simp only [cstr, List.takeWhile_idem]
      | jsonNode o a core => exact ih h (by omega) hrest hf

/-! ### Whole texts -/

/-- A separated list has no byte but those of its items and the commas. -/
theorem mem_commaSeparated {c : UInt8} {items : List Bytes} (h : c ∈ commaSeparated items) :
    c = comma ∨ ∃ item ∈ items, c ∈ item := by
  induction items with
  | nil => simp [commaSeparated] at h
  | cons item items ih =>
      cases items with
      | nil => exact Or.inr ⟨item, by simp, h⟩
      | cons item' items =>
          simp only [commaSeparated] at h
          rcases List.mem_append.mp h with h | h
          · exact Or.inr ⟨item, by simp, h⟩
          · rcases List.mem_cons.mp h with h | h
            · exact Or.inl h
            · rcases ih h with h | ⟨i, hi, h⟩
              · exact Or.inl h
              · exact Or.inr ⟨i, by simp [hi], h⟩

/-- A printed literal has no NUL. -/
theorem zero_notMem_sbAppendEscaped (s : Bytes) : 0 ∉ sbAppendEscaped s := by
  have hesc : ∀ c : UInt8, c ≠ 0 → 0 ∉ escapeByte c := by grind [escapeByte]
  have hne : ∀ c ∈ cstr s, c ≠ 0 := by
    intro c hc
    simpa using List.mem_takeWhile_imp hc
  simp only [sbAppendEscaped, List.mem_cons, List.mem_append, List.mem_flatMap, List.not_mem_nil,
    or_false]
  rintro (h | ⟨c, hc, h⟩ | h)
  · exact absurd h (by decide)
  · exact hesc c (hne c hc) h
  · exact absurd h (by decide)

/-- A printed tree has no NUL. -/
theorem zero_notMem_stringifyLevels {P : Bytes → Prop} {Q : D → Prop} {levels : ℕ} {t : Obj D}
    (hnum : ∀ d, Q d → StartsNumber dbl d) (h : Nodes P Q levels t) :
    0 ∉ stringifyLevels dbl depthMarker levels t := by
  induction levels generalizing t with
  | zero => exact h.elim
  | succ levels ih =>
      cases t with
      | jString s => exact zero_notMem_sbAppendEscaped s
      | jNumber d => exact (hnum d h).2
      | jBool b =>
          rw [stringifyLevels]
          cases b <;> decide
      | jNull =>
          rw [stringifyLevels]
          decide
      | arrayList items =>
          intro hmem
          simp only [stringifyLevels, List.mem_cons, List.mem_append, List.not_mem_nil,
            or_false] at hmem
          rcases hmem with hmem | hmem | hmem
          · exact absurd hmem (by decide)
          · rcases mem_commaSeparated hmem with hmem | ⟨item, hi, hmem⟩
            · exact absurd hmem (by decide)
            · obtain ⟨o, ho, rfl⟩ := List.mem_map.mp hi
              exact ih (h o ho) hmem
          · exact absurd hmem (by decide)
      | hashMap map =>
          intro hmem
          simp only [stringifyLevels, List.mem_cons, List.mem_append, List.not_mem_nil,
            or_false] at hmem
          rcases hmem with hmem | hmem | hmem
          · exact absurd hmem (by decide)
          · rcases mem_commaSeparated hmem with hmem | ⟨item, hi, hmem⟩
            · exact absurd hmem (by decide)
            · obtain ⟨e, he, rfl⟩ := List.mem_map.mp hi
              rcases List.mem_append.mp hmem with hmem | hmem
              · exact zero_notMem_sbAppendEscaped e.1 hmem
              · rcases List.mem_cons.mp hmem with hmem | hmem
                · exact absurd hmem (by decide)
                · exact ih (h e he).2 hmem
          · exact absurd hmem (by decide)
      | jsonNode o a core => exact ih h

/-- What is printed is one C string, and not an empty one. -/
theorem cstr_implStringify {P : Bytes → Prop} {Q : D → Prop} {t : Obj D}
    (hnum : ∀ d, Q d → StartsNumber dbl d) (h : Nodes P Q (maxJsonDepth + 1) t) :
    cstr (implStringify dbl t) = implStringify dbl t ∧ implStringify dbl t ≠ [] := by
  constructor
  · refine List.takeWhile_eq_self_iff.mpr fun c hc => ?_
    have hne : c ≠ 0 := by
      rintro rfl
      exact zero_notMem_stringifyLevels hnum h hc
    simpa using hne
  · obtain ⟨c, s, hhead, -⟩ := stringifyLevels_head hnum h
    have hprint : implStringify dbl t = c :: s := hhead
    rw [hprint]
    exact List.cons_ne_nil c s

/-- A printed **tree** is read back. -/
theorem parseJSON_stringifyLevels {t : Obj D}
    (h : Nodes (fun s => IsLiteral (cstr s)) (ReadsNumber dbl) (maxJsonDepth + 1) t) :
    parseJSON dbl (implStringify dbl t) =
      .ok (.jsonNode (isHashmap (reread dbl (maxJsonDepth + 1) t))
        (isArraylist (reread dbl (maxJsonDepth + 1) t)) (reread dbl (maxJsonDepth + 1) t)) := by
  obtain ⟨hcstr, hne⟩ := cstr_implStringify (fun d hd => hd.1) h
  have hprint : implStringify dbl t = stringifyLevels dbl depthMarker (maxJsonDepth + 1) t := rfl
  have hfuel : 2 * (stringifyLevels dbl depthMarker (maxJsonDepth + 1) t ++ []).length + 1 ≤
      parseFuel (implStringify dbl t) := by
    rw [List.append_nil, ← hprint, parseFuel]
    omega
  have hv := parseValue_stringifyLevels h (Nat.le_of_eq (Nat.zero_add _)) rfl hfuel
  rw [List.append_nil, ← hprint] at hv
  simp only [parseJSON, hcstr, if_neg hne, hv]
  simp [skipWs]

end Json
