import LibCore.TemplateEngine
import LibCore.JsonClosure
import LibCore.JsonRoundTrip

/-!
# Escaping in Templates

Where the bytes of a rendered template come from. The renderer is run with a builder that collects
pieces, each of them text of the template or a value of the context; the bytes are the texts of the
pieces, and a value enters them through the escaper only.

## Main results

* `Commutes.renderRange`: the renderer commutes with every map of builders and contexts.
* `renderRange_forall`: what holds of the template and of every value holds of the output.
* `render_escaped`: no markup but that of the template, no `&` of a value but in an entity, and no text
  of a value that is read as a tag.
-/

open CString

namespace TemplateEngine

open Json

variable {D : Type}

/-! ### Maps of builders -/

/-- A map of what two builders collect, and of their contexts, that the operations of the renderer
respect. -/
structure Commutes {α β : Type} (tb : Builder D α) (tb' : Builder D β) (φ : List α → List β)
    (F : Obj D → Obj D) : Prop where
  nil : φ [] = []
  append : ∀ a b, φ (a ++ b) = φ a ++ φ b
  text : ∀ s, tb'.append s = φ (tb.append s)
  value : ∀ o, tb'.appendValue (F o) = (tb.appendValue o).map φ
  get : ∀ o key, nodeGet (F o) key = (nodeGet o key).map F
  items : ∀ o, sectionItems (F o) = (sectionItems o).map F

section Commutes

variable {α β : Type} {tb : Builder D α} {tb' : Builder D β} {φ : List α → List β} {F : Obj D → Obj D}

theorem Commutes.renderItems (h : Commutes tb tb' φ F) {body : Obj D → Option (List α)}
    {body' : Obj D → Option (List β)} (hbody : ∀ o, body' (F o) = (body o).map φ)
    (items : List (Obj D)) :
    TemplateEngine.renderItems body' (items.map F) = (TemplateEngine.renderItems body items).map φ := by
  induction items with
  | nil => simp [TemplateEngine.renderItems, h.nil]
  | cons item items ih =>
      rw [List.map_cons, TemplateEngine.renderItems, TemplateEngine.renderItems, hbody, ih]
      cases body item with
      | none => rfl
      | some out => cases TemplateEngine.renderItems body items <;> simp [h.append]

/-- The renderer commutes with the map. -/
theorem Commutes.renderRange (h : Commutes tb tb' φ F) (text : Bytes) (stop : ℕ) (ctx : Option (Obj D))
    (p : ℕ) : TemplateEngine.renderRange tb' text stop (ctx.map F) p =
      (TemplateEngine.renderRange tb text stop ctx p).map φ := by
  have hlookup : ∀ (ctx : Option (Obj D)) key,
      (ctx.map F).bind (nodeGet · key) = (ctx.bind (nodeGet · key)).map F := by
    intro ctx key
    cases ctx with
    | none => rfl
    | some o => exact h.get o key
  fun_induction TemplateEngine.renderRange tb text stop ctx p with
  | case1 stop ctx p hp before htag => rw [renderRange_last tb' _ hp htag, h.text]; rfl
  | case2 stop ctx p hp before q htag ih =>
      rw [renderRange_unclosed tb' _ hp htag, ih, Option.map_map, Option.map_map]
      congr 1
      funext out
      simp [h.text, h.append, before]
  | case3 stop ctx p hp before q htag ih =>
      rw [renderRange_closing tb' _ hp htag, ih, Option.map_map, Option.map_map]
      congr 1
      funext out
      simp [h.text, h.append, before]
  | case4 stop ctx p hp htag => rw [renderRange_bad tb' _ hp htag]; rfl
  | case5 stop ctx p hp before key q htag ih =>
      have hvalue : ((ctx.bind (nodeGet · key)).map F).elim (some []) tb'.appendValue =
          ((ctx.bind (nodeGet · key)).elim (some []) tb.appendValue).map φ := by
        cases ctx.bind (nodeGet · key) with
        | none => simp [h.nil]
        | some o => exact h.value o
      rw [renderRange_scalar tb' _ hp htag, hlookup, hvalue, ih, Option.bind_map, Option.map_bind]
      congr 1
      funext value
      simp [h.text, h.append, before, Function.comp_def]
  | case6 stop ctx p hp before key start sectionEnd q htag items ihs ih =>
      have hitems : ((ctx.bind (nodeGet · key)).map F).elim [] sectionItems = items.map F := by
        unfold items
        cases ctx.bind (nodeGet · key) with
        | none => rfl
        | some o => exact h.items o
      rw [renderRange_section tb' _ hp htag, hlookup, hitems,
        h.renderItems (fun item => ihs item), ih, Option.bind_map, Option.map_bind]
      congr 1
      funext body
      simp [h.text, h.append, before, Function.comp_def]
  | case7 stop ctx p hp => rw [renderRange_done tb' _ hp, Option.map_some, h.nil]

end Commutes

/-! ### What holds of the output -/

section Forall

variable {α : Type} {tb : Builder D α} {P : α → Prop}

theorem forall_renderItems {body : Obj D → Option (List α)}
    (hbody : ∀ item out, body item = some out → ∀ a ∈ out, P a) {items : List (Obj D)} {out : List α}
    (h : renderItems body items = some out) : ∀ a ∈ out, P a := by
  induction items generalizing out with
  | nil =>
      obtain rfl := Option.some.inj h
      simp
  | cons item items ih =>
      obtain ⟨first, hfirst, h⟩ := Option.bind_eq_some_iff.mp h
      obtain ⟨rest, hrest, rfl⟩ := Option.map_eq_some_iff.mp h
      exact List.forall_mem_append.mpr ⟨hbody item first hfirst, ih hrest⟩

theorem slice_isInfix (text : Bytes) (a b : ℕ) : slice text a b <:+: text :=
  (List.drop_suffix _ _).isInfix.trans (List.take_prefix _ _).isInfix

/-- The text before a tag is text of the template, and so are the braces of a tag that is not closed. -/
theorem nextTag_isInfix (text : Bytes) (stop p : ℕ) : (nextTag text stop p).1 <:+: text ∧
    ∀ q, (nextTag text stop p).2 = .unclosed q → [0x7B, 0x7B] <:+: text := by
  rw [nextTag]
  cases hopen : strstrAt text p [0x7B, 0x7B] with
  | none => exact ⟨slice_isInfix _ _ _, fun q hq => by cases hq⟩
  | some tagStart =>
      have hbraces : [0x7B, 0x7B] <:+: text := by
        obtain ⟨i, hi, -⟩ := Option.map_eq_some_iff.mp hopen
        have hprefix := ((strstr_eq_some_iff (by simp)).mp hi).1
        exact hprefix.isInfix.trans ((List.drop_suffix _ _).trans (List.drop_suffix _ _)).isInfix
      simp only
      split_ifs
      · exact ⟨slice_isInfix _ _ _, fun _ _ => hbraces⟩
      · cases strstrAt text (tagStart + 2) [0x7D, 0x7D] with
        | none => exact ⟨slice_isInfix _ _ _, fun _ _ => hbraces⟩
        | some tagEnd =>
            simp only
            split_ifs <;> exact ⟨slice_isInfix _ _ _, fun _ _ => hbraces⟩

/-- What holds of the text of the template and of every value holds of the **output**. -/
theorem renderRange_forall {text : Bytes} (htext : ∀ s, s <:+: text → ∀ a ∈ tb.append s, P a)
    (hvalue : ∀ o out, tb.appendValue o = some out → ∀ a ∈ out, P a) {stop p : ℕ}
    {ctx : Option (Obj D)} : ∀ out, renderRange tb text stop ctx p = some out → ∀ a ∈ out, P a := by
  have hbefore : ∀ stop p, ∀ a ∈ tb.append (nextTag text stop p).1, P a :=
    fun stop p => htext _ (nextTag_isInfix text stop p).1
  fun_induction renderRange tb text stop ctx p with
  | case1 stop ctx p hp before htag =>
      intro out h
      obtain rfl := Option.some.inj h
      exact hbefore stop p
  | case2 stop ctx p hp before q htag ih =>
      intro out h
      obtain ⟨rest, hrest, rfl⟩ := Option.map_eq_some_iff.mp h
      have hbraces := htext _ ((nextTag_isInfix text stop p).2 q htag)
      exact List.forall_mem_append.mpr
        ⟨List.forall_mem_append.mpr ⟨hbefore stop p, hbraces⟩, ih rest hrest⟩
  | case3 stop ctx p hp before q htag ih =>
      intro out h
      obtain ⟨rest, hrest, rfl⟩ := Option.map_eq_some_iff.mp h
      exact List.forall_mem_append.mpr ⟨hbefore stop p, ih rest hrest⟩
  | case4 stop ctx p hp htag => exact fun out h => by cases h
  | case5 stop ctx p hp before key q htag ih =>
      intro out h
      obtain ⟨value, hv, h⟩ := Option.bind_eq_some_iff.mp h
      obtain ⟨rest, hrest, rfl⟩ := Option.map_eq_some_iff.mp h
      have hval : ∀ a ∈ value, P a := by
        cases hget : ctx.bind (nodeGet · key) with
        | none =>
            rw [hget] at hv
            obtain rfl := Option.some.inj hv
            simp
        | some o =>
            rw [hget] at hv
            exact hvalue o value hv
      exact List.forall_mem_append.mpr ⟨List.forall_mem_append.mpr ⟨hbefore stop p, hval⟩, ih rest hrest⟩
  | case6 stop ctx p hp before key start sectionEnd q htag items ihs ih =>
      intro out h
      obtain ⟨body, hbody, h⟩ := Option.bind_eq_some_iff.mp h
      obtain ⟨rest, hrest, rfl⟩ := Option.map_eq_some_iff.mp h
      have hitems := forall_renderItems ihs hbody
      exact List.forall_mem_append.mpr
        ⟨List.forall_mem_append.mpr ⟨hbefore stop p, hitems⟩, ih rest hrest⟩
  | case7 stop ctx p hp =>
      intro out h
      obtain rfl := Option.some.inj h
      simp

end Forall

/-! ### The escaper -/

/-- `<`, `>`, the quote and the single quote. -/
def markup : Bytes := ascii ['<', '>', '"'] ++ [0x27]

/-- The entities the engine writes. -/
def entities : List Bytes :=
  [ascii ['&', 'a', 'm', 'p', ';'], ascii ['&', 'l', 't', ';'], ascii ['&', 'g', 't', ';'],
    ascii ['&', 'q', 'u', 'o', 't', ';'], ascii ['&', '#', '3', '9', ';'],
    ascii ['&', '#', '0', ';']]

/-- Every `&` of a text begins an entity. -/
def InEntities (t : Bytes) : Prop := ∀ a b, t = a ++ 0x26 :: b → ∃ e ∈ entities, e <+: 0x26 :: b

/-- What `printf` writes for `%g` has letters, digits, signs and points. -/
def PlainNumbers (dbl : Double D) : Prop :=
  ∀ d, ∀ c ∈ dbl.formatG d, isalnum c = true ∨ c = 0x2B ∨ c = 0x2D ∨ c = 0x2E

theorem mem_markup_iff {c : UInt8} : c ∈ markup ↔ c = 0x3C ∨ c = 0x3E ∨ c = 0x22 ∨ c = 0x27 := by
  rw [show markup = [0x3C, 0x3E, 0x22, 0x27] from rfl]
  simp

theorem plain_ne {c : UInt8} (h : isalnum c = true ∨ c = 0x2B ∨ c = 0x2D ∨ c = 0x2E) :
    c ∉ markup ∧ c ≠ 0x26 := by
  rw [mem_markup_iff]
  constructor
  · rintro (rfl | rfl | rfl | rfl) <;> revert h <;> decide
  · rintro rfl
    revert h
    decide

/-- An escaped byte is an entity, or a byte of its own that is neither markup nor `&`. -/
theorem escapedByte_cases (ch : UInt8) :
    escapedByte ch ∈ entities ∨ (escapedByte ch = [ch] ∧ ch ∉ markup ∧ ch ≠ 0x26) := by
  rw [escapedByte, mem_markup_iff]
  split_ifs with hamp hlt hgt hquot hapos hnul
  case neg => exact .inr ⟨rfl, by simp [hlt, hgt, hquot, hapos], hamp⟩
  all_goals exact .inl (by simp [entities])

/-- An entity has one `&`, and no markup. -/
theorem entity_shape : ∀ e ∈ entities,
    e = 0x26 :: e.tail ∧ 0x26 ∉ e.tail ∧ ∀ c ∈ markup, c ∉ e := by
  intro e he
  simp only [entities, List.mem_cons, List.not_mem_nil, or_false] at he
  rcases he with rfl | rfl | rfl | rfl | rfl | rfl <;>
    exact ⟨rfl, by decide, fun c hc => by rcases mem_markup_iff.mp hc with rfl | rfl | rfl | rfl <;> decide⟩

theorem notMem_tbAppendEscapedLen {c : UInt8} (hc : c ∈ markup) (s : Bytes) :
    c ∉ tbAppendEscapedLen s := by
  simp only [tbAppendEscapedLen, List.mem_flatMap, not_exists, not_and]
  intro ch _
  rcases escapedByte_cases ch with hentity | ⟨heq, hplain, -⟩
  · obtain ⟨-, -, hmarkup⟩ := entity_shape _ hentity
    exact hmarkup c hc
  · rw [heq, List.mem_singleton]
    rintro rfl
    exact hplain hc

theorem inEntities_of_notMem {t : Bytes} (h : 0x26 ∉ t) : InEntities t := by
  rintro a b rfl
  simp at h

/-- Every `&` of an escaped text begins an entity. -/
theorem inEntities_tbAppendEscapedLen (s : Bytes) : InEntities (tbAppendEscapedLen s) := by
  induction s with
  | nil => exact inEntities_of_notMem (by simp [tbAppendEscapedLen])
  | cons ch s ih =>
      intro a b heq
      rw [tbAppendEscapedLen, List.flatMap_cons, ← tbAppendEscapedLen] at heq
      rcases escapedByte_cases ch with hentity | ⟨hself, -, hne⟩
      · obtain ⟨ht, hamp, -⟩ := entity_shape _ hentity
        cases a with
        | nil =>
            -- the `&` is the first byte of this entity
            refine ⟨_, hentity, ?_⟩
            rw [← List.nil_append (0x26 :: b), ← heq]
            exact List.prefix_append _ _
        | cons x a =>
            rw [ht, List.cons_append, List.cons_append, List.cons.injEq] at heq
            rcases List.append_eq_append_iff.mp heq.2 with ⟨m, -, hrest⟩ | ⟨m, hmem, hrest⟩
            · exact ih _ _ hrest
            · cases m with
              | nil => exact ih [] b (by simpa using hrest.symm)
              | cons y m =>
                  rw [List.cons_append, List.cons.injEq] at hrest
                  rw [hmem, ← hrest.1] at hamp
                  simp at hamp
      · rw [hself, List.singleton_append] at heq
        cases a with
        | nil =>
            rw [List.nil_append, List.cons.injEq] at heq
            exact absurd heq.1 hne
        | cons x a => exact ih a b (List.cons.inj heq).2

/-- The text of a value has no markup, and no `&` but in entities. -/
theorem renderValue_escaped {dbl : Double D} (hnum : PlainNumbers dbl) {o : Obj D} {out : Bytes}
    (h : renderValue dbl o = some out) : (∀ c ∈ markup, c ∉ out) ∧ InEntities out := by
  have hempty : (∀ c ∈ markup, c ∉ ([] : Bytes)) ∧ InEntities [] :=
    ⟨by simp, inEntities_of_notMem (by simp)⟩
  cases o with
  | jString s =>
      obtain rfl := Option.some.inj h
      exact ⟨fun c hc => notMem_tbAppendEscapedLen hc s, inEntities_tbAppendEscapedLen s⟩
  | jNumber d =>
      rw [renderValue] at h
      split at h
      · cases h
      · obtain rfl := Option.some.inj h
        have hplain := fun c hc => plain_ne (hnum d c hc)
        exact ⟨fun c hc hmem => (hplain c hmem).1 hc,
          inEntities_of_notMem fun hmem => (hplain _ hmem).2 rfl⟩
  | jBool b =>
      obtain rfl := Option.some.inj h
      refine ⟨fun c hc => ?_, inEntities_of_notMem (by cases b <;> decide)⟩
      rcases mem_markup_iff.mp hc with rfl | rfl | rfl | rfl <;> cases b <;> decide
  | jNull => obtain rfl := Option.some.inj h; exact hempty
  | arrayList items => obtain rfl := Option.some.inj h; exact hempty
  | hashMap map => obtain rfl := Option.some.inj h; exact hempty
  | jsonNode isObjectFlag isArrayFlag core => obtain rfl := Option.some.inj h; exact hempty

/-! ### Contexts with other strings -/

/-- A map with its values replaced one by one. -/
def mapValues {V W : Type} (f : V → W) (m : HashMap V) : HashMap W where
  buckets := m.buckets.map fun c => c.map fun e => (e.1, f e.2)
  size := m.size

theorem get_mapValues {V W : Type} (f : V → W) (m : HashMap V) (key : Bytes) :
    (mapValues f m).get key = (m.get key).map f := by
  have hfind : ∀ c : List (Bytes × V), Chain.find? (keyMatches key) (c.map fun e => (e.1, f e.2)) =
      (Chain.find? (keyMatches key) c).map f := by
    intro c
    induction c with
    | nil => rfl
    | cons e c ih =>
        rw [List.map_cons, Chain.find?, Chain.find?, ih]
        split_ifs <;> rfl
  have hbucket : (mapValues f m).bucket key = (m.bucket key).map fun e => (e.1, f e.2) := by
    simp only [HashMap.bucket, HashMap.index, HashMap.capacity, mapValues, List.length_map,
      List.getD_eq_getElem?_getD, List.getElem?_map]
    cases m.buckets[(hashStr key).toNat % m.buckets.length]? <;> rfl
  rw [HashMap.get, hbucket, hfind, HashMap.get]

/-- A tree with every string replaced by `g` of it. -/
def mapStrings (g : Bytes → Bytes) : Obj D → Obj D
  | .jString s => .jString (g s)
  | .jNumber d => .jNumber d
  | .jBool b => .jBool b
  | .jNull => .jNull
  | .arrayList items => .arrayList (items.attach.map fun o => mapStrings g o.1)
  | .hashMap map => .hashMap
      { buckets := map.buckets.attach.map fun c =>
          c.1.attach.map fun e => (e.1.1, mapStrings g e.1.2)
        size := map.size }
  | .jsonNode isObjectFlag isArrayFlag core => .jsonNode isObjectFlag isArrayFlag (mapStrings g core)
termination_by o => sizeOf o
decreasing_by
  · have := List.sizeOf_lt_of_mem o.2
    simp only [Obj.arrayList.sizeOf_spec]
    omega
  · have := sizeOf_lt_of_mem_entries (List.mem_flatten.mpr ⟨c.1, c.2, e.2⟩)
    simp only [Obj.hashMap.sizeOf_spec]
    omega
  · simp only [Obj.jsonNode.sizeOf_spec]
    omega

/-- The equations of `mapStrings`, with the maps instead of the attached lists. -/
theorem mapStrings_eq (g : Bytes → Bytes) (o : Obj D) :
    mapStrings g o = match o with
      | .jString s => .jString (g s)
      | .jNumber d => .jNumber d
      | .jBool b => .jBool b
      | .jNull => .jNull
      | .arrayList items => .arrayList (items.map (mapStrings g))
      | .hashMap map => .hashMap (mapValues (mapStrings g) map)
      | .jsonNode isObjectFlag isArrayFlag core =>
          .jsonNode isObjectFlag isArrayFlag (mapStrings g core) := by
  rw [mapStrings.eq_def]
  cases o with
  | arrayList items => exact congrArg _ (List.attach_map_val (f := mapStrings g))
  | hashMap map =>
      have hinner : ∀ c : List (Bytes × Obj D),
          (c.attach.map fun e => (e.1.1, mapStrings g e.1.2)) = c.map fun e => (e.1, mapStrings g e.2) :=
        fun c => List.attach_map_val (f := fun e : Bytes × Obj D => (e.1, mapStrings g e.2))
      dsimp only [mapValues]
      congr 2
      simp only [hinner]
      exact List.attach_map_val
        (f := fun c : List (Bytes × Obj D) => c.map fun e => (e.1, mapStrings g e.2))
  | _ => rfl

theorem nodeGet_mapStrings (g : Bytes → Bytes) (o : Obj D) (key : Bytes) :
    nodeGet (mapStrings g o) key = (nodeGet o key).map (mapStrings g) := by
  rw [mapStrings_eq]
  cases o with
  | jsonNode isObjectFlag isArrayFlag core =>
      cases isObjectFlag with
      | false => rfl
      | true =>
          dsimp only
          rw [mapStrings_eq]
          cases core with
          | hashMap map => exact get_mapValues _ map key
          | _ => rfl
  | _ => rfl

theorem isObjectNode_mapStrings (g : Bytes → Bytes) (o : Obj D) :
    isObjectNode (mapStrings g o) = isObjectNode o := by
  rw [mapStrings_eq]
  cases o <;> rfl

theorem sectionItems_mapStrings (g : Bytes → Bytes) (o : Obj D) :
    sectionItems (mapStrings g o) = (sectionItems o).map (mapStrings g) := by
  rw [mapStrings_eq]
  cases o with
  | jsonNode isObjectFlag isArrayFlag core =>
      cases isArrayFlag with
      | false => rfl
      | true =>
          dsimp only
          rw [mapStrings_eq]
          cases core with
          | arrayList items =>
              rw [sectionItems, sectionItems, List.filter_map]
              congr 2
              funext o
              exact isObjectNode_mapStrings g o
          | _ => rfl
  | _ => rfl

/-! ### Pieces -/

/-- Where a part of the output comes from. -/
inductive Piece (D : Type) where
  | template (s : Bytes)
  | value (o : Obj D)

/-- The bytes of a piece. -/
def Piece.text (dbl : Double D) : Piece D → Bytes
  | .template s => s
  | .value o => (renderValue dbl o).getD []

/-- A piece with every string of a value replaced. -/
def Piece.mapStrings (g : Bytes → Bytes) : Piece D → Piece D
  | .template s => .template s
  | .value o => .value (TemplateEngine.mapStrings g o)

/-- A builder that collects the pieces, and fails when the source does. -/
def pieceBuilder (dbl : Double D) : Builder D (Piece D) where
  append s := [.template s]
  appendValue o := (renderValue dbl o).map fun _ => [.value o]

/-- The bytes are the texts of the pieces. -/
theorem commutes_text (dbl : Double D) :
    Commutes (pieceBuilder dbl) (tplBuilder dbl) (List.flatMap (Piece.text dbl)) id where
  nil := rfl
  append _ _ := List.flatMap_append
  text s := by simp [pieceBuilder, tplBuilder, Piece.text]
  value o := by
    simp only [pieceBuilder, tplBuilder, id_eq]
    cases ho : renderValue dbl o <;> simp [Piece.text, ho]
  get o key := by simp
  items o := by simp

/-- Replacing the strings of the context replaces those of the pieces, and nothing else. -/
theorem commutes_mapStrings (dbl : Double D) (g : Bytes → Bytes) :
    Commutes (pieceBuilder dbl) (pieceBuilder dbl) (List.map (Piece.mapStrings g)) (mapStrings g) where
  nil := rfl
  append _ _ := List.map_append
  text s := rfl
  value o := by
    simp only [pieceBuilder, Option.map_map]
    have hpiece : (fun _ : Bytes => [Piece.value (TemplateEngine.mapStrings g o)]) =
        List.map (Piece.mapStrings g) ∘ fun _ => [Piece.value o] := rfl
    rw [← hpiece, mapStrings_eq]
    cases o <;> rfl
  get := nodeGet_mapStrings g
  items := sectionItems_mapStrings g

/-- The pieces of a rendered template. -/
def pieces (dbl : Double D) (templateText : Bytes) (ctx : Option (Obj D)) : Option (List (Piece D)) :=
  renderRange (pieceBuilder dbl) (cstr templateText) (cstr templateText).length ctx 0

theorem render_eq_pieces (dbl : Double D) (templateText : Bytes) (ctx : Option (Obj D)) :
    render dbl templateText ctx =
      (pieces dbl templateText ctx).map (List.flatMap (Piece.text dbl)) := by
  have h := (commutes_text dbl).renderRange (cstr templateText) (cstr templateText).length ctx 0
  rwa [Option.map_id] at h

/-- **Escaping.** Whatever the template and the context are, the output has no `<`, `>`, quote or single
quote that the template has not; and it is made of pieces, where a piece is text of the template or a
value of which every `&` begins an entity. The tags of the template decide alone which pieces there are:
with other strings in the context, the output has the texts of those in their place. -/
theorem render_escaped {dbl : Double D} (hnum : PlainNumbers dbl) {templateText : Bytes}
    {ctx : Option (Obj D)} {out : Bytes} (h : render dbl templateText ctx = some out) :
    (∀ c ∈ markup, c ∉ cstr templateText → c ∉ out) ∧
      ∃ ps : List (Piece D), out = ps.flatMap (Piece.text dbl) ∧
        (∀ s, Piece.template s ∈ ps → s <:+: cstr templateText) ∧
        (∀ o, Piece.value o ∈ ps → InEntities (Piece.text dbl (.value o))) ∧
        ∀ g, render dbl templateText (ctx.map (mapStrings g)) =
          some ((ps.map (Piece.mapStrings g)).flatMap (Piece.text dbl)) := by
  constructor
  · intro c hc htext
    have hne := renderRange_forall (P := (· ≠ c))
      (fun s hs a ha heq => htext (heq ▸ hs.subset ha))
      (fun o value hvalue a ha heq => (renderValue_escaped hnum hvalue).1 c hc (heq ▸ ha)) out h
    exact fun hmem => hne c hmem rfl
  · rw [render_eq_pieces] at h
    obtain ⟨ps, hps, rfl⟩ := Option.map_eq_some_iff.mp h
    refine ⟨ps, rfl, fun s hs => ?_, fun o _ => ?_, fun g => ?_⟩
    · have hinfix := renderRange_forall (P := fun p => ∀ s, p = .template s → s <:+: cstr templateText)
        (fun s hs a ha t heq => by
          obtain rfl := List.mem_singleton.mp ha
          exact Piece.template.inj heq ▸ hs)
        (fun o value hvalue a ha t heq => by
          obtain ⟨-, -, rfl⟩ := Option.map_eq_some_iff.mp hvalue
          obtain rfl := List.mem_singleton.mp ha
          cases heq) ps hps
      exact hinfix _ hs s rfl
    · cases ho : renderValue dbl o with
      | none =>
          rw [Piece.text, ho]
          exact inEntities_of_notMem (by simp)
      | some value =>
          rw [Piece.text, ho]
          exact (renderValue_escaped hnum ho).2
    · have hmap := (commutes_mapStrings dbl g).renderRange (cstr templateText)
        (cstr templateText).length ctx 0
      rw [render_eq_pieces, pieces, hmap]
      rw [pieces] at hps
      rw [hps]
      rfl

/-- A context with one member. -/
def sampleContext (value : Bytes) : Obj Unit :=
  .jsonNode true false (.hashMap ((HashMap.new 16).put [0x6B] (.jString value)))

/-- A value that looks like a tag is text. -/
theorem render_escaped_sample :
    render zeroDouble [0x61, 0x7B, 0x7B, 0x6B, 0x7D, 0x7D]
        (some (sampleContext [0x7B, 0x7B, 0x6B, 0x7D, 0x7D, 0x3C])) =
      some ([0x61, 0x7B, 0x7B, 0x6B, 0x7D, 0x7D] ++ ascii ['&', 'l', 't', ';']) ∧
    0x3C ∉ [0x61, 0x7B, 0x7B, 0x6B, 0x7D, 0x7D] ++ ascii ['&', 'l', 't', ';'] := by
  have hrender : render zeroDouble [0x61, 0x7B, 0x7B, 0x6B, 0x7D, 0x7D]
      (some (sampleContext [0x7B, 0x7B, 0x6B, 0x7D, 0x7D, 0x3C])) =
        some ([0x61, 0x7B, 0x7B, 0x6B, 0x7D, 0x7D] ++ ascii ['&', 'l', 't', ';']) := by
    decide +kernel
  have hnum : PlainNumbers zeroDouble := fun _ => by
    change ∀ c ∈ ascii ['0'], _
    decide +kernel
  exact ⟨hrender, (render_escaped hnum hrender).1 0x3C (by decide) (by decide)⟩

end TemplateEngine
