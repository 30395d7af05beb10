import LibCore.Json
import Mathlib.Data.List.DropRight

/-!
# The Template Engine

`board_template_engine.c`: a subset of Mustache. A template is one C string; the renderer walks a range
of it, finds the next tag, and appends the text before it and what the tag stands for. A scalar tag
stands for a value of the context, a section for its range, once for every object of an array.

Positions are offsets into the template. Every function returns what it appends to the builder, `none`
for a builder that has failed. Allocations succeed. The context is a tree of `json.c`; the engine reads
it with `json_as_value`, `json_as_node` and the methods of a node only.

The range renderer is generic in what the builder collects: the source collects bytes, and
`TemplateEscaping` looks at where they come from.

## Main definitions

* `nextTag`: one round of the loop of the range renderer, up to what is appended.
* `renderRange`, `render`: the range renderer and the entry point.
-/

open CString

namespace TemplateEngine

open Json

variable {D : Type}

/-- `TEMPLATE_KEY_MAX`. -/
def templateKeyMax : ℕ := 127

/-! ### Values -/

/-- The branches of `tb_append_escaped_len`. -/
def escapedByte (ch : UInt8) : Bytes :=
  if ch = 0x26 then ascii ['&', 'a', 'm', 'p', ';']
  else if ch = 0x3C then ascii ['&', 'l', 't', ';']
  else if ch = 0x3E then ascii ['&', 'g', 't', ';']
  else if ch = 0x22 then ascii ['&', 'q', 'u', 'o', 't', ';']
  else if ch = 0x27 then ascii ['&', '#', '3', '9', ';']
  else if ch = 0 then ascii ['&', '#', '0', ';']
  else [ch]

/-- `tb_append_escaped_len`. -/
def tbAppendEscapedLen (str : Bytes) : Bytes := str.flatMap escapedByte

/-- `TemplateEngine_renderValue` on an object. A number that does not fit the buffer of 64 bytes fails. -/
def renderValue (dbl : Double D) : Obj D → Option Bytes
  | .jString s => some (tbAppendEscapedLen s)
  | .jNumber d => if (dbl.formatG d).length ≥ 64 then none else some (dbl.formatG d)
  | .jBool b => some (boolText b)
  | _ => some []

/-- `node_get`, on an object that is used as a node. -/
def nodeGet : Obj D → Bytes → Option (Obj D)
  | .jsonNode true _ (.hashMap map), key => map.get key
  | _, _ => none

/-- `json_as_node` and `isObject`. -/
def isObjectNode : Obj D → Bool
  | .jsonNode isObjectFlag _ _ => isObjectFlag
  | _ => false

/-- The items of a section that are rendered: the objects of an array. -/
def sectionItems : Obj D → List (Obj D)
  | .jsonNode _ true (.arrayList items) => items.filter isObjectNode
  | _ => []

/-! ### Tags -/

/-- The bytes from `a` to before `b`. -/
def slice (text : Bytes) (a b : ℕ) : Bytes := (text.take b).drop a

/-- `strstr(p, needle)`, as a position in the template. -/
def strstrAt (text : Bytes) (p : ℕ) (needle : Bytes) : Option ℕ :=
  (strstr needle (text.drop p)).map (p + ·)

theorem le_of_strstrAt {text needle : Bytes} {p i : ℕ} (h : strstrAt text p needle = some i) :
    p ≤ i := by
  obtain ⟨j, -, rfl⟩ := Option.map_eq_some_iff.mp h
  exact Nat.le_add_right p j

/-- The tag that opens a section. -/
def openTag (key : Bytes) : Bytes := [0x7B, 0x7B, 0x23] ++ key ++ [0x7D, 0x7D]

/-- The tag that closes it. -/
def closeTag (key : Bytes) : Bytes := [0x7B, 0x7B, 0x2F] ++ key ++ [0x7D, 0x7D]

/-- The loop of `TemplateEngine_findSectionEnd`. -/
def findSectionEndLoop (text key : Bytes) (stop depth p : ℕ) : Option ℕ :=
  if p < stop then
    match _hclose : strstrAt text p (closeTag key) with
    | none => none
    | some nextClose =>
        if nextClose ≥ stop then none
        else
          match _hopen : (strstrAt text p (openTag key)).filter (· < nextClose) with
          | some nextOpen =>
              findSectionEndLoop text key stop (depth + 1) (nextOpen + (openTag key).length)
          | none =>
              if depth = 0 then some nextClose
              else findSectionEndLoop text key stop (depth - 1) (nextClose + (closeTag key).length)
  else none
termination_by stop - p
decreasing_by
  · have hle := le_of_strstrAt (Option.filter_eq_some_iff.mp _hopen).1
    simp only [openTag, List.length_append, List.length_cons]
    omega
  · have hle := le_of_strstrAt _hclose
    simp only [closeTag, List.length_append, List.length_cons]
    omega

/-- `TemplateEngine_findSectionEnd`: both tags have to fit their buffers. -/
def findSectionEnd (text : Bytes) (start stop : ℕ) (key : Bytes) : Option ℕ :=
  if (openTag key).length ≥ templateKeyMax + 6 ∨ (closeTag key).length ≥ templateKeyMax + 6 then none
  else findSectionEndLoop text key stop 0 start

/-- The end of a section lies behind its start, inside the range. -/
theorem findSectionEndLoop_bounds {text key : Bytes} {stop depth p i : ℕ}
    (h : findSectionEndLoop text key stop depth p = some i) : p ≤ i ∧ i < stop := by
  fun_induction findSectionEndLoop text key stop depth p with
  | case1 => cases h
  | case2 => cases h
  | case3 depth p hp nextClose hclose hlt nextOpen hopen ih =>
      have hle := le_of_strstrAt (Option.filter_eq_some_iff.mp hopen).1
      exact ⟨hle.trans ((Nat.le_add_right _ _).trans (ih h).1), (ih h).2⟩
  | case4 p hp nextClose hclose hlt hopen =>
      obtain rfl := Option.some.inj h
      exact ⟨le_of_strstrAt hclose, Nat.not_le.mp hlt⟩
  | case5 depth p hp nextClose hclose hlt hopen hdepth ih =>
      have hle := le_of_strstrAt hclose
      exact ⟨hle.trans ((Nat.le_add_right _ _).trans (ih h).1), (ih h).2⟩
  | case6 => cases h

theorem findSectionEnd_bounds {text key : Bytes} {start stop i : ℕ}
    (h : findSectionEnd text start stop key = some i) : start ≤ i ∧ i < stop := by
  rw [findSectionEnd] at h
  split at h
  · cases h
  · exact findSectionEndLoop_bounds h

/-- What the renderer finds at a position: no tag before the end of the range, a tag that is not closed, a
closing tag, which is skipped, a tag that fails the builder, a scalar, or a section with its range. The
last number is the position behind the tag. -/
inductive Tag where
  | last
  | unclosed (p : ℕ)
  | closing (p : ℕ)
  | bad
  | scalar (key : Bytes) (p : ℕ)
  | section (key : Bytes) (start stop p : ℕ)
deriving DecidableEq

/-- The key of a tag without the blanks around it. -/
def trimKey (s : Bytes) : Bytes := (s.dropWhile isspace).rdropWhile isspace

/-- The tag between `p` and `tagEnd`. -/
def tagBetween (text : Bytes) (stop p tagEnd : ℕ) : Tag :=
  let isSection : Bool := text[p]? = some 0x23
  let p := if isSection then p + 1 else p
  if text[p]? = some 0x2F then .closing (tagEnd + 2)
  else
    let key := trimKey (slice text p tagEnd)
    if key = [] ∨ key.length > templateKeyMax then .bad
    else if isSection then
      match findSectionEnd text (tagEnd + 2) stop key with
      | none => .bad
      | some sectionEnd =>
          .section key (tagEnd + 2) sectionEnd (sectionEnd + (closeTag key).length)
    else .scalar key (tagEnd + 2)

/-- A round of `TemplateEngine_renderRange` at `p < stop`: the text before the next tag, and the tag. -/
def nextTag (text : Bytes) (stop p : ℕ) : Bytes × Tag :=
  match strstrAt text p [0x7B, 0x7B] with
  | none => (slice text p stop, .last)
  | some tagStart =>
      if tagStart ≥ stop then (slice text p stop, .last)
      else
        match strstrAt text (tagStart + 2) [0x7D, 0x7D] with
        | none => (slice text p tagStart, .unclosed (tagStart + 2))
        | some tagEnd =>
            if tagEnd ≥ stop then (slice text p tagStart, .unclosed (tagStart + 2))
            else (slice text p tagStart, tagBetween text stop (tagStart + 2) tagEnd)

/-- What lies behind a tag, and the range of a section, are shorter than the range itself. -/
def Tag.Ahead (stop p : ℕ) : Tag → Prop
  | .last => True
  | .unclosed q => p < q
  | .closing q => p < q
  | .bad => True
  | .scalar _ q => p < q
  | .section _ start sectionEnd q => p < start ∧ sectionEnd < stop ∧ p < q

theorem tagBetween_ahead {text : Bytes} {stop p tagEnd q : ℕ} (hq : q < tagEnd + 2) :
    (tagBetween text stop p tagEnd).Ahead stop q := by
  simp only [tagBetween]
  generalize (if decide (text[p]? = some 0x23) = true then p + 1 else p) = p'
  split_ifs with hclosing hkey hsection
  · exact hq
  · trivial
  · cases hend : findSectionEnd text (tagEnd + 2) stop _ with
    | none => trivial
    | some sectionEnd =>
        obtain ⟨hle, hlt⟩ := findSectionEnd_bounds hend
        exact ⟨hq, hlt, by simp only [closeTag, List.length_append, List.length_cons]; omega⟩
  · exact hq

/-- The tag lies ahead. -/
theorem nextTag_ahead (text : Bytes) (stop p : ℕ) : (nextTag text stop p).2.Ahead stop p := by
  rw [nextTag]
  cases hopen : strstrAt text p [0x7B, 0x7B] with
  | none => trivial
  | some tagStart =>
      have hle := le_of_strstrAt hopen
      have hlt : p < tagStart + 2 := by omega
      simp only
      split_ifs
      · trivial
      · cases hclose : strstrAt text (tagStart + 2) [0x7D, 0x7D] with
        | none => exact hlt
        | some tagEnd =>
            have hle' := le_of_strstrAt hclose
            simp only
            split_ifs
            · exact hlt
            · exact tagBetween_ahead (by omega)

/-! ### The renderer -/

/-- What a builder collects of a piece of the template and of a value of the context. -/
structure Builder (D α : Type) where
  append : Bytes → List α
  appendValue : Obj D → Option (List α)

/-- `TplBuilder`. -/
def tplBuilder (dbl : Double D) : Builder D UInt8 where
  append s := s
  appendValue := renderValue dbl

/-- The loop over the items of a section. -/
def renderItems {α : Type} (body : Obj D → Option (List α)) : List (Obj D) → Option (List α)
  | [] => some []
  | item :: items => (body item).bind fun out => (renderItems body items).map (out ++ ·)

/-- `TemplateEngine_renderRange` from `p` on. -/
def renderRange {α : Type} (tb : Builder D α) (text : Bytes) (stop : ℕ) (ctx : Option (Obj D)) (p : ℕ) :
    Option (List α) :=
  if p < stop then
    let before := tb.append (nextTag text stop p).1
    match _htag : (nextTag text stop p).2 with
    | .last => some before
    | .unclosed q =>
        (renderRange tb text stop ctx q).map fun out => before ++ tb.append [0x7B, 0x7B] ++ out
    | .closing q => (renderRange tb text stop ctx q).map (before ++ ·)
    | .bad => none
    | .scalar key q =>
        (((ctx.bind (nodeGet · key)).elim (some []) tb.appendValue)).bind fun value =>
          (renderRange tb text stop ctx q).map fun out => before ++ value ++ out
    | .section key start sectionEnd q =>
        let items := (ctx.bind (nodeGet · key)).elim [] sectionItems
        (renderItems (fun item => renderRange tb text sectionEnd (some item) start) items).bind
          fun body => (renderRange tb text stop ctx q).map fun out => before ++ body ++ out
  else some []
termination_by stop - p
decreasing_by
  all_goals
    have hahead := nextTag_ahead text stop p
    rw [_htag] at hahead
    simp only [Tag.Ahead] at hahead
    omega

/-! The rounds of the renderer, by the tag they find. -/

section Rounds

variable {α : Type} (tb : Builder D α) {text : Bytes} {stop p : ℕ} (ctx : Option (Obj D))

theorem renderRange_done (hp : ¬p < stop) : renderRange tb text stop ctx p = some [] := by
  rw [renderRange, if_neg hp]

theorem renderRange_last (hp : p < stop) (htag : (nextTag text stop p).2 = .last) :
    renderRange tb text stop ctx p = some (tb.append (nextTag text stop p).1) := by
  rw [renderRange, if_pos hp]
  split <;> simp_all

theorem renderRange_unclosed (hp : p < stop) {q : ℕ} (htag : (nextTag text stop p).2 = .unclosed q) :
    renderRange tb text stop ctx p = (renderRange tb text stop ctx q).map fun out =>
      tb.append (nextTag text stop p).1 ++ tb.append [0x7B, 0x7B] ++ out := by
  rw [renderRange, if_pos hp]
  split <;> simp_all

theorem renderRange_closing (hp : p < stop) {q : ℕ} (htag : (nextTag text stop p).2 = .closing q) :
    renderRange tb text stop ctx p =
      (renderRange tb text stop ctx q).map (tb.append (nextTag text stop p).1 ++ ·) := by
  rw [renderRange, if_pos hp]
  split <;> simp_all

theorem renderRange_bad (hp : p < stop) (htag : (nextTag text stop p).2 = .bad) :
    renderRange tb text stop ctx p = none := by
  rw [renderRange, if_pos hp]
  split <;> simp_all

theorem renderRange_scalar (hp : p < stop) {key : Bytes} {q : ℕ}
    (htag : (nextTag text stop p).2 = .scalar key q) :
    renderRange tb text stop ctx p =
      ((ctx.bind (nodeGet · key)).elim (some []) tb.appendValue).bind fun value =>
        (renderRange tb text stop ctx q).map fun out =>
          tb.append (nextTag text stop p).1 ++ value ++ out := by
  rw [renderRange, if_pos hp]
  split <;> simp_all

theorem renderRange_section (hp : p < stop) {key : Bytes} {start sectionEnd q : ℕ}
    (htag : (nextTag text stop p).2 = .section key start sectionEnd q) :
    renderRange tb text stop ctx p =
      (renderItems (fun item => renderRange tb text sectionEnd (some item) start)
        ((ctx.bind (nodeGet · key)).elim [] sectionItems)).bind fun body =>
          (renderRange tb text stop ctx q).map fun out =>
            tb.append (nextTag text stop p).1 ++ body ++ out := by
  rw [renderRange, if_pos hp]
  split <;> simp_all

end Rounds

/-- `TemplateEngine_render`: the text up to its NUL is the range. -/
def render (dbl : Double D) (templateText : Bytes) (ctx : Option (Obj D)) : Option Bytes :=
  renderRange (tplBuilder dbl) (cstr templateText) (cstr templateText).length ctx 0

end TemplateEngine
