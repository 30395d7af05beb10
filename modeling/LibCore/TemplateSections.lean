import LibCore.HashMapRefine
import LibCore.TemplateTokens
import LibCore.TemplateEscaping

/-!
# Sections and Blanks in Templates

Properly nested templates, and what they mean. A section ends where the renderer finds the text of its closing
tag with as many opening tags of the key before it; for a template without blanks this is its own closing tag. The
renderer takes the blanks away around the key of a tag, and the search for the end of a section does not: a closing
tag with blanks closes nothing, and an opening tag with blanks is not counted.

## Main definitions

* `Template`: properly nested templates, with the blanks in their tags.
* `Template.eval`: the reference semantics.
* `Template.Searchable`: no closing tag has blanks, and no opening tag with blanks lies in a section of its key.

## Main results

* `render_bare`: without blanks the renderer agrees with the reference semantics.
* `render_blanks_iff`: blanks do not change the output exactly when every section is searchable.
-/

open CString

namespace TemplateEngine

open Json

variable {D : Type}

/-! ### Templates -/

/-- The blanks around the key of a tag. -/
structure Blanks where
  left : Bytes
  right : Bytes
deriving DecidableEq

/-- No blanks. -/
def Blanks.none : Blanks := ⟨[], []⟩

/-- The tag of a key, with blanks. -/
def Blanks.tag (blanks : Blanks) (kind : Kind) (key : Bytes) : Token :=
  .tag kind blanks.left key blanks.right

theorem Blanks.tag_ne (blanks : Blanks) {kind kind' : Kind} (h : kind ≠ kind')
    {key key' left right : Bytes} : blanks.tag kind key ≠ .tag kind' left key' right :=
  fun heq => h (Token.tag.inj heq).1

theorem Blanks.tag_ne_key (blanks : Blanks) {key key' : Bytes} (h : key ≠ key') {kind kind' : Kind}
    {left right : Bytes} : blanks.tag kind key ≠ .tag kind' left key' right :=
  fun heq => h (Token.tag.inj heq).2.2.1

/-- Properly nested templates. -/
inductive Template where
  | nil
  | literal (s : Bytes) (rest : Template)
  | scalar (blanks : Blanks) (key : Bytes) (rest : Template)
  | «section» (opening : Blanks) (key : Bytes) (body : Template) (closing : Blanks) (rest : Template)

namespace Template

/-- The tokens of a template. -/
def tokens : Template → List Token
  | nil => []
  | literal s rest => .literal s :: rest.tokens
  | scalar blanks key rest => blanks.tag .scalar key :: rest.tokens
  | «section» opening key body closing rest =>
      opening.tag .opening key :: (body.tokens ++ closing.tag .closing key :: rest.tokens)

/-- The text of a template. -/
def wire (t : Template) : Bytes := wireOf t.tokens

/-- The literals and the tags are those of a template. -/
def WellFormed (t : Template) : Prop := ∀ token ∈ t.tokens, token.WellFormed

/-- The template without its blanks. -/
def strip : Template → Template
  | nil => nil
  | literal s rest => literal s rest.strip
  | scalar _ key rest => scalar .none key rest.strip
  | «section» _ key body _ rest => «section» .none key body.strip .none rest.strip

/-- No tag has blanks. -/
def Bare (t : Template) : Prop := t.strip = t

end Template

/-! ### The reference semantics -/

/-- The text of the value of a scalar: nothing when there is none. -/
def valueText (dbl : Double D) : Option (Obj D) → Bytes
  | some (.jString s) => tbAppendEscapedLen s
  | some (.jNumber d) => dbl.formatG d
  | some (.jBool b) => boolText b
  | _ => []

/-- The objects of the array of a section: none when it is no array. -/
def arrayObjects : Option (Obj D) → List (Obj D)
  | some (.jsonNode _ true (.arrayList items)) => items.filter isObjectNode
  | _ => []

/-- What a template means. -/
def Template.eval (dbl : Double D) : Template → Option (Obj D) → Bytes
  | .nil, _ => []
  | .literal s rest, ctx => s ++ rest.eval dbl ctx
  | .scalar _ key rest, ctx => valueText dbl (ctx.bind (nodeGet · key)) ++ rest.eval dbl ctx
  | .section _ key body _ rest, ctx =>
      (arrayObjects (ctx.bind (nodeGet · key))).flatMap (fun item => body.eval dbl (some item)) ++
        rest.eval dbl ctx

/-! ### Searchable templates -/

namespace Template

/-- The keys of the opening tags with blanks. -/
def blankOpens : Template → List Bytes
  | nil => []
  | literal _ rest => rest.blankOpens
  | scalar _ _ rest => rest.blankOpens
  | «section» opening key body _ rest =>
      (if opening = .none then [] else [key]) ++ (body.blankOpens ++ rest.blankOpens)

/-- No closing tag has blanks, and no opening tag with blanks lies in a section of its key. -/
def Searchable : Template → Prop
  | nil => True
  | literal _ rest => rest.Searchable
  | scalar _ _ rest => rest.Searchable
  | «section» _ key body closing rest =>
      closing = .none ∧ key ∉ body.blankOpens ∧ body.Searchable ∧ rest.Searchable

theorem blankOpens_strip (t : Template) : t.strip.blankOpens = [] := by
  induction t with
  | nil => rfl
  | literal _ _ ih => exact ih
  | scalar _ _ _ ih => exact ih
  | «section» _ _ _ _ _ ihbody ihrest => simp [strip, blankOpens, ihbody, ihrest]

theorem searchable_strip (t : Template) : t.strip.Searchable := by
  induction t with
  | nil => trivial
  | literal _ _ ih => exact ih
  | scalar _ _ _ ih => exact ih
  | «section» _ _ body _ _ ihbody ihrest =>
      exact ⟨rfl, by rw [blankOpens_strip]; exact List.not_mem_nil, ihbody, ihrest⟩

/-! Well-formed templates, part by part. -/

theorem WellFormed.literal {s : Bytes} {rest : Template} (h : (Template.literal s rest).WellFormed) :
    rest.WellFormed := fun token hmem => h token (List.mem_cons_of_mem _ hmem)

theorem WellFormed.scalar {blanks : Blanks} {key : Bytes} {rest : Template}
    (h : (Template.scalar blanks key rest).WellFormed) : IsKey key ∧ rest.WellFormed :=
  ⟨(h _ List.mem_cons_self).1, fun token hmem => h token (List.mem_cons_of_mem _ hmem)⟩

theorem WellFormed.section {opening closing : Blanks} {key : Bytes} {body rest : Template}
    (h : (Template.section opening key body closing rest).WellFormed) :
    IsKey key ∧ body.WellFormed ∧ rest.WellFormed := by
  refine ⟨(h _ List.mem_cons_self).1, fun token hmem => ?_, fun token hmem => ?_⟩
  · exact h token (List.mem_cons_of_mem _ (List.mem_append_left _ hmem))
  · exact h token (List.mem_cons_of_mem _ (List.mem_append_right _ (List.mem_cons_of_mem _ hmem)))

theorem WellFormed.strip {t : Template} (h : t.WellFormed) : t.strip.WellFormed := by
  have hbare : ∀ {kind key}, IsKey key → (Blanks.none.tag kind key).WellFormed := fun hkey =>
    ⟨hkey, fun _ hmem => (List.not_mem_nil hmem).elim, fun _ hmem => (List.not_mem_nil hmem).elim⟩
  induction t with
  | nil => exact h
  | literal s rest ih =>
      exact List.forall_mem_cons.mpr ⟨h _ List.mem_cons_self, ih h.literal⟩
  | scalar blanks key rest ih =>
      exact List.forall_mem_cons.mpr ⟨hbare h.scalar.1, ih h.scalar.2⟩
  | «section» opening key body closing rest ihbody ihrest =>
      obtain ⟨hkey, hbody, hrest⟩ := h.section
      exact List.forall_mem_cons.mpr ⟨hbare hkey, List.forall_mem_append.mpr
        ⟨ihbody hbody, List.forall_mem_cons.mpr ⟨hbare hkey, ihrest hrest⟩⟩⟩

/-- The search goes over a searchable template. -/
theorem findClose_tokens {t : Template} (ht : t.Searchable) {key : Bytes} (hkey : key ∉ t.blankOpens)
    (depth : ℕ) (ts : List Token) :
    findClose key depth (t.tokens ++ ts) = (findClose key depth ts).map (Prod.map (t.tokens ++ ·) id) := by
  induction t generalizing depth ts with
  | nil => exact Option.map_id'.symm
  | literal s rest ih =>
      rw [tokens, List.cons_append, findClose_other Token.noConfusion Token.noConfusion, ih ht hkey,
        Option.map_map]
      rfl
  | scalar blanks key' rest ih =>
      rw [tokens, List.cons_append, findClose_other (blanks.tag_ne Kind.noConfusion)
        (blanks.tag_ne Kind.noConfusion), ih ht hkey, Option.map_map]
      rfl
  | «section» opening key' body closing rest ihbody ihrest =>
      obtain ⟨rfl, hinner, hbody, hrest⟩ := ht
      rw [blankOpens, List.mem_append, List.mem_append, not_or, not_or] at hkey
      obtain ⟨hopening, hkeybody, hkeyrest⟩ := hkey
      rw [tokens, List.cons_append, List.append_assoc, List.cons_append]
      by_cases heq : key' = key
      · subst heq
        obtain rfl : opening = .none := by
          by_contra hne
          rw [if_neg hne] at hopening
          exact hopening List.mem_cons_self
        have hopen : Blanks.none.tag .opening key' = openTok key' := rfl
        have hclose : Blanks.none.tag .closing key' = closeTok key' := rfl
        rw [hopen, hclose, findClose_open, ihbody hbody hkeybody, findClose_close, ihrest hrest hkeyrest]
        simp only [Option.map_map]
        congr 1
        funext r
        simp [Prod.map]
      · rw [findClose_other (opening.tag_ne Kind.noConfusion) (opening.tag_ne_key heq),
          ihbody hbody hkeybody, findClose_other (Blanks.tag_ne_key _ heq) (Blanks.tag_ne _ Kind.noConfusion),
          ihrest hrest hkeyrest]
        simp only [Option.map_map]
        congr 1
        funext r
        simp [Prod.map]

/-- A searchable section ends at its own closing tag. -/
theorem findClose_body {body : Template} (hbody : body.Searchable) {key : Bytes}
    (hkey : key ∉ body.blankOpens)
    (ts : List Token) : findClose key 0 (body.tokens ++ closeTok key :: ts) = some (body.tokens, ts) := by
  rw [findClose_tokens hbody hkey, findClose_end, Option.map_some, Prod.map_apply, List.append_nil, id]

end Template

/-! ### The renderer and the reference semantics -/

theorem renderItems_eq_some {body : Obj D → Option Bytes} {out : Obj D → Bytes} {items : List (Obj D)}
    (h : ∀ item ∈ items, body item = some (out item)) :
    renderItems body items = some (items.flatMap out) := by
  induction items with
  | nil => rfl
  | cons item items ih =>
      obtain ⟨hitem, hitems⟩ := List.forall_mem_cons.mp h
      rw [renderItems, hitem, Option.bind_some, ih hitems, List.flatMap_cons]
      rfl

theorem itemsOf_eq (ctx : Option (Obj D)) (key : Bytes) :
    itemsOf ctx key = arrayObjects (ctx.bind (nodeGet · key)) := by
  rw [itemsOf]
  cases ctx.bind (nodeGet · key) with
  | none => rfl
  | some o =>
      cases o with
      | jsonNode isObjectFlag isArrayFlag coreData => cases isArrayFlag <;> cases coreData <;> rfl
      | _ => rfl

/-- A scalar whose number fits the buffer is its text. -/
theorem scalarText_eq {dbl : Double D} (hG : ∀ d, (dbl.formatG d).length < 64) (ctx : Option (Obj D))
    (key : Bytes) :
    scalarText dbl ctx key = some (valueText dbl (ctx.bind (nodeGet · key))) := by
  rw [scalarText]
  cases ctx.bind (nodeGet · key) with
  | none => rfl
  | some o =>
      cases o with
      | jNumber d => exact if_neg (Nat.not_le.mpr (hG d))
      | _ => rfl

/-- A searchable section. -/
theorem renderTokens_section (dbl : Double D) {body : Template} (hbody : body.Searchable) {key : Bytes}
    (hkey : key ∉ body.blankOpens) (opening : Blanks) (ts : List Token) (ctx : Option (Obj D)) :
    renderTokens dbl (opening.tag .opening key :: (body.tokens ++ Blanks.none.tag .closing key :: ts)) ctx =
      (renderItems (fun item => renderTokens dbl body.tokens (some item)) (itemsOf ctx key)).bind fun out =>
        (renderTokens dbl ts ctx).map (out ++ ·) := by
  have hclose : findClose key 0 (body.tokens ++ Blanks.none.tag .closing key :: ts) =
      some (body.tokens, ts) :=
    Template.findClose_body hbody hkey ts
  rw [Blanks.tag, renderTokens_opening, hclose, Option.bind_some]

/-- In contexts whose scalars have their text, a searchable template renders to what it means. -/
theorem renderTokens_eq_eval {dbl : Double D} {P : Option (Obj D) → Prop}
    (hvalue : ∀ ctx key, P ctx → IsKey key →
      scalarText dbl ctx key = some (valueText dbl (ctx.bind (nodeGet · key))))
    (hitems : ∀ ctx key, P ctx → IsKey key → ∀ item ∈ itemsOf ctx key, P (some item)) {t : Template}
    (hwf : t.WellFormed) (ht : t.Searchable) {ctx : Option (Obj D)} (hctx : P ctx) :
    renderTokens dbl t.tokens ctx = some (t.eval dbl ctx) := by
  induction t generalizing ctx with
  | nil => rw [Template.tokens, renderTokens, Template.eval]
  | literal s rest ih =>
      rw [Template.tokens, renderTokens, ih hwf.literal ht hctx, Template.eval, Option.map_some]
  | scalar blanks key rest ih =>
      obtain ⟨hkey, hrest⟩ := hwf.scalar
      rw [Template.tokens, Blanks.tag, renderTokens, hvalue ctx key hctx hkey, ih hrest ht hctx,
        Template.eval]
      rfl
  | «section» opening key body closing rest ihbody ihrest =>
      obtain ⟨hkey, hwfbody, hwfrest⟩ := hwf.section
      obtain ⟨rfl, hinner, hbody, hrest⟩ := ht
      have hrounds := renderItems_eq_some fun item hitem =>
        ihbody hwfbody hbody (hitems ctx key hctx hkey item hitem)
      rw [Template.tokens, renderTokens_section dbl hbody hinner, hrounds, Option.bind_some,
        ihrest hwfrest hrest hctx, Template.eval, itemsOf_eq]
      rfl

/-- Whether a token is a tag of a kind and a key. -/
def Token.isTag (kind : Kind) (key : Bytes) : Token → Bool
  | .literal _ => false
  | .tag kind' _ key' _ => kind' = kind ∧ key' = key

/-- The object that gives every key an array of one object, and so on for some levels. -/
def roundContext (keys : List Bytes) : ℕ → Obj D
  | 0 => .jsonNode true false (.hashMap (HashMap.new 16))
  | n + 1 =>
      .jsonNode true false (.hashMap ((keys.map fun key =>
        (key, Obj.jsonNode false true (.arrayList [roundContext keys n]))).foldl (fun m e => m.put e.1 e.2)
          (HashMap.new 16)))

section Rounds

variable {keys : List Bytes} (hnodup : keys.Nodup) (hkeys : ∀ key ∈ keys, key.length < maxKeyLen)

include hnodup hkeys

end Rounds

/-- **Sections end where they should.** A template without blanks renders to what it means. -/
theorem render_bare {dbl : Double D} (hG : ∀ d, (dbl.formatG d).length < 64) {t : Template}
    (hwf : t.WellFormed) (hbare : t.Bare) (ctx : Option (Obj D)) :
    render dbl t.wire ctx = some (t.eval dbl ctx) := by
  have ht : t.Searchable := by
    have := t.searchable_strip
    rwa [hbare] at this
  rw [Template.wire, render_wireOf dbl hwf]
  exact @renderTokens_eq_eval _ _ (fun _ => True) (fun ctx key _ _ => scalarText_eq hG ctx key)
    (fun _ _ _ _ _ _ => trivial) t hwf ht ctx trivial

/-- A section in a section of the same key, and a scalar. -/
def nestedTemplate : Template :=
  .section .none [0x6B] (.section .none [0x6B] (.literal [0x61] .nil) .none .nil) .none
    (.scalar .none [0x78] (.literal [0x62] .nil))

theorem isKey_singleton {c : UInt8} (h : c ≠ 0 ∧ c ≠ 0x7B ∧ c ≠ 0x7D ∧ c ≠ 0x23 ∧ c ≠ 0x2F)
    (hspace : isspace c = false) : IsKey [c] where
  ne_nil := List.cons_ne_nil _ _
  length_le := by simp [templateKeyMax]
  bytes := by simpa using ⟨h.1, h.2.1, h.2.2.1, hspace⟩
  head := by simpa using ⟨h.2.2.2.1, h.2.2.2.2⟩

theorem nestedTemplate_wellFormed : nestedTemplate.WellFormed := by
  have hk : IsKey [0x6B] := isKey_singleton (by decide) (by decide)
  have hx : IsKey [0x78] := isKey_singleton (by decide) (by decide)
  simp [Template.WellFormed, nestedTemplate, Template.tokens, Blanks.tag, Blanks.none, Token.WellFormed,
    hk, hx]

/-- The inner section is rendered in the rounds of the outer one. -/
theorem render_bare_nested :
    (zeroDouble.formatG ()).length < 64 ∧ nestedTemplate.Bare ∧
      render zeroDouble nestedTemplate.wire (some (roundContext [[0x6B]] 2)) = some [0x61, 0x62] := by
  have hG : ∀ d, (zeroDouble.formatG d).length < 64 := by
    intro d
    change (ascii ['0']).length < 64
    decide
  have heval : nestedTemplate.eval zeroDouble (some (roundContext [[0x6B]] 2)) = [0x61, 0x62] := by
    decide +kernel
  refine ⟨hG (), rfl, ?_⟩
  rw [render_bare hG nestedTemplate_wellFormed rfl, heval]

end TemplateEngine
