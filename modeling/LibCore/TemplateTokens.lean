import LibCore.TemplateEngine

/-!
# Templates as Tokens

The text of a template is read by searching for tags, also beyond the range that is rendered. For a text that is
made of literals and tags this is a walk over a list of tokens: an occurrence of `{{` is the start of a tag, and
the text of a tag that opens or closes a section without blanks is found only where that tag stands.

## Main definitions

* `Token`, `wireOf`: literals and tags, and their text.
* `findClose`: the search for the end of a section, on tokens.
* `renderTokens`: the renderer, on tokens.

## Main results

* `findSectionEndLoop_tokens`: the search for the end of a section.
* `render_wireOf`: the renderer on the text of tokens is the renderer on tokens.
-/

open CString

namespace TemplateEngine

open Json

variable {D : Type}

/-! ### Tokens -/

/-- The kinds of a tag. -/
inductive Kind where
  | scalar | opening | closing
deriving DecidableEq

/-- What stands before the key. -/
def Kind.sigil : Kind → Bytes
  | .scalar => []
  | .opening => [0x23]
  | .closing => [0x2F]

/-- Text, or a tag with the blanks around its key. -/
inductive Token where
  | literal (s : Bytes)
  | tag (kind : Kind) (left key right : Bytes)
deriving DecidableEq

/-- What stands between the braces of a tag. -/
def content (kind : Kind) (left key right : Bytes) : Bytes := kind.sigil ++ (left ++ key ++ right)

/-- The text of a token. -/
def Token.wire : Token → Bytes
  | .literal s => s
  | .tag kind left key right => 0x7B :: 0x7B :: (content kind left key right ++ [0x7D, 0x7D])

/-- The text of some tokens. -/
def wireOf (ts : List Token) : Bytes := ts.flatMap Token.wire

theorem wireOf_cons (t : Token) (ts : List Token) : wireOf (t :: ts) = t.wire ++ wireOf ts :=
  List.flatMap_cons

theorem wireOf_append (ts us : List Token) : wireOf (ts ++ us) = wireOf ts ++ wireOf us :=
  List.flatMap_append

/-- A key: no braces, no blanks, and it does not look like another kind of tag. -/
structure IsKey (key : Bytes) : Prop where
  ne_nil : key ≠ []
  length_le : key.length ≤ templateKeyMax
  bytes : ∀ c ∈ key, c ≠ 0 ∧ c ≠ 0x7B ∧ c ≠ 0x7D ∧ isspace c = false
  head : key.head? ≠ some 0x23 ∧ key.head? ≠ some 0x2F

/-- A token of a template. -/
def Token.WellFormed : Token → Prop
  | .literal s => ∀ c ∈ s, c ≠ 0 ∧ c ≠ 0x7B
  | .tag _ left key right => IsKey key ∧ (∀ c ∈ left, isspace c = true) ∧ ∀ c ∈ right, isspace c = true

/-- The opening tag that a search finds. -/
def openTok (key : Bytes) : Token := .tag .opening [] key []

/-- The closing tag that a search finds. -/
def closeTok (key : Bytes) : Token := .tag .closing [] key []

theorem wire_openTok (key : Bytes) : (openTok key).wire = openTag key := by
  simp [openTok, Token.wire, content, Kind.sigil, openTag]

theorem wire_closeTok (key : Bytes) : (closeTok key).wire = closeTag key := by
  simp [closeTok, Token.wire, content, Kind.sigil, closeTag]

theorem ne_of_isspace {c : UInt8} (h : isspace c = true) :
    c ≠ 0 ∧ c ≠ 0x7B ∧ c ≠ 0x7D ∧ c ≠ 0x23 ∧ c ≠ 0x2F := by
  refine ⟨?_, ?_, ?_, ?_, ?_⟩ <;>
    · rintro rfl
      exact absurd h (by decide)

section Tags

variable {kind : Kind} {left key right : Bytes} (h : (Token.tag kind left key right).WellFormed)

include h

theorem content_bytes : ∀ c ∈ content kind left key right, c ≠ 0 ∧ c ≠ 0x7B ∧ c ≠ 0x7D := by
  obtain ⟨hkey, hleft, hright⟩ := h
  have hblank : ∀ c, isspace c = true → c ≠ 0 ∧ c ≠ 0x7B ∧ c ≠ 0x7D := fun c hc =>
    ⟨(ne_of_isspace hc).1, (ne_of_isspace hc).2.1, (ne_of_isspace hc).2.2.1⟩
  intro c hc
  rw [content, List.mem_append, List.mem_append, List.mem_append] at hc
  rcases hc with hc | (hc | hc) | hc
  · cases kind with
    | scalar => cases hc
    | opening | closing =>
        obtain rfl := List.mem_singleton.mp hc
        decide
  · exact hblank c (hleft c hc)
  · exact ⟨(hkey.bytes c hc).1, (hkey.bytes c hc).2.1, (hkey.bytes c hc).2.2.1⟩
  · exact hblank c (hright c hc)

/-- What stands behind the sigil does not look like another kind of tag. -/
theorem head_inner : (left ++ key ++ right).head? ≠ some 0x23 ∧
    (left ++ key ++ right).head? ≠ some 0x2F := by
  obtain ⟨hkey, hleft, -⟩ := h
  cases left with
  | nil =>
      obtain ⟨c, rest, rfl⟩ := List.exists_cons_of_ne_nil hkey.ne_nil
      exact hkey.head
  | cons c rest =>
      have hc := ne_of_isspace (hleft c List.mem_cons_self)
      exact ⟨fun heq => hc.2.2.2.1 (Option.some.inj heq), fun heq => hc.2.2.2.2 (Option.some.inj heq)⟩

/-- The renderer takes the blanks away. -/
theorem trimKey_inner : trimKey (left ++ key ++ right) = key := by
  obtain ⟨hkey, hleft, hright⟩ := h
  have hnot : ∀ c ∈ key, ¬isspace c = true := fun c hc => by simp [(hkey.bytes c hc).2.2.2]
  have hdrop : ∀ {blanks rest : Bytes}, (∀ c ∈ blanks, isspace c = true) →
      (blanks ++ rest).dropWhile isspace = rest.dropWhile isspace := by
    intro blanks rest hblanks
    rw [List.dropWhile_append_of_pos hblanks]
  have hstop : ∀ {k rest : Bytes}, k ≠ [] → (∀ c ∈ k, ¬isspace c = true) →
      (k ++ rest).dropWhile isspace = k ++ rest := by
    intro k rest hk hbytes
    obtain ⟨c, k, rfl⟩ := List.exists_cons_of_ne_nil hk
    rw [List.cons_append, List.dropWhile_cons_of_neg (hbytes c List.mem_cons_self)]
  rw [trimKey, List.append_assoc, hdrop hleft, hstop hkey.ne_nil hnot, List.rdropWhile, List.reverse_append,
    hdrop (by simpa using hright)]
  have hrev := @hstop key.reverse [] (by simpa using hkey.ne_nil) (by simpa using hnot)
  rw [List.append_nil] at hrev
  rw [hrev, List.reverse_reverse]

end Tags

/-! ### Searching in the text of tokens -/

/-- The search goes over a text in which the needle does not start. -/
theorem strstrAt_append {text needle w rest : Bytes} {p : ℕ} (h : text.drop p = w ++ rest)
    (hfree : ∀ a b, w = a ++ b → b ≠ [] → ¬needle <+: b ++ rest) (hz : 0 ∉ w) :
    strstrAt text p needle = strstrAt text (p + w.length) needle := by
  induction w generalizing p with
  | nil => rfl
  | cons c w ih =>
      have hdrop : text.drop (p + 1) = w ++ rest := by
        rw [← List.drop_drop, h]
        rfl
      rw [List.mem_cons, not_or] at hz
      have hno : ¬needle <+: c :: (w ++ rest) := hfree [] (c :: w) rfl (List.cons_ne_nil _ _)
      have hstep : strstrAt text p needle = strstrAt text (p + 1) needle := by
        rw [strstrAt, strstrAt, h, hdrop, List.cons_append, strstr, if_neg hno, if_neg (Ne.symm hz.1),
          Option.map_map]
        congr 1
        funext i
        simp only [Function.comp]
        omega
      rw [hstep, ih hdrop (fun a b hw => hfree (c :: a) b (by rw [hw, List.cons_append])) hz.2,
        List.length_cons, Nat.add_assoc, Nat.add_comm 1]

theorem strstrAt_here {text needle rest : Bytes} {p : ℕ} (hneedle : needle ≠ [])
    (h : text.drop p = needle ++ rest) : strstrAt text p needle = some p := by
  obtain ⟨c, needle, rfl⟩ := List.exists_cons_of_ne_nil hneedle
  rw [strstrAt, h, List.cons_append, strstr,
    if_pos (by rw [← List.cons_append]; exact List.prefix_append _ _)]
  rfl

/-- No tag starts inside of a token. -/
theorem Token.WellFormed.free {t : Token} (ht : t.WellFormed) {needle rest : Bytes}
    (hneedle : [0x7B, 0x7B] <+: needle) (hfirst : ¬needle <+: t.wire ++ rest) :
    ∀ a b, t.wire = a ++ b → b ≠ [] → ¬needle <+: b ++ rest := by
  obtain ⟨tail, rfl⟩ := hneedle
  intro a b hwire hb hprefix
  obtain ⟨c, b, rfl⟩ := List.exists_cons_of_ne_nil hb
  rw [List.cons_append, List.cons_append, List.cons_append, List.cons_prefix_cons] at hprefix
  obtain ⟨rfl, hprefix⟩ := hprefix
  cases t with
  | literal s =>
      have hmem : (0x7B : UInt8) ∈ s := by
        change s = a ++ 0x7B :: b at hwire
        rw [hwire]
        simp
      exact (ht _ hmem).2 rfl
  | tag kind left key right =>
      have hbytes := content_bytes ht
      have hinner : ∀ c ∈ content kind left key right ++ [0x7D, 0x7D], c ≠ 0x7B := by
        intro c hc
        rcases List.mem_append.mp hc with hc | hc
        · exact (hbytes c hc).2.1
        · obtain rfl : c = 0x7D := by simpa using hc
          decide
      rw [Token.wire] at hwire
      cases a with
      | nil =>
          refine hfirst ?_
          rw [Token.wire, hwire]
          exact List.cons_prefix_cons.mpr ⟨rfl, hprefix⟩
      | cons x a =>
          obtain ⟨-, hwire⟩ := List.cons_eq_cons.mp hwire
          cases a with
          | nil =>
              -- the second brace is followed by the content
              obtain ⟨-, rfl⟩ := List.cons_eq_cons.mp hwire
              cases hcontent : content kind left key right with
              | nil =>
                  rw [hcontent] at hprefix
                  exact absurd (List.cons_prefix_cons.mp hprefix).1 (by decide)
              | cons y ys =>
                  rw [hcontent] at hprefix hinner
                  exact hinner y List.mem_cons_self (List.cons_prefix_cons.mp hprefix).1.symm
          | cons y a =>
              obtain ⟨-, hwire⟩ := List.cons_eq_cons.mp hwire
              exact hinner 0x7B (by rw [hwire]; simp) rfl

theorem Token.WellFormed.zero_notMem {t : Token} (ht : t.WellFormed) : 0 ∉ t.wire := by
  cases t with
  | literal s => exact fun hmem => (ht 0 hmem).1 rfl
  | tag kind left key right =>
      intro hmem
      rw [Token.wire, List.mem_cons, List.mem_cons, List.mem_append] at hmem
      rcases hmem with hmem | hmem | hmem | hmem
      · exact absurd hmem (by decide)
      · exact absurd hmem (by decide)
      · exact (content_bytes ht 0 hmem).1 rfl
      · exact absurd hmem (by decide)

/-! ### The tags that a search finds -/

/-- Texts up to the first closing brace. -/
theorem eq_of_braces {a b rest : Bytes} (ha : ∀ c ∈ a, c ≠ 0x7D) (hb : ∀ c ∈ b, c ≠ 0x7D)
    (h : a ++ [0x7D, 0x7D] <+: b ++ [0x7D, 0x7D] ++ rest) : a = b := by
  induction a generalizing b with
  | nil =>
      cases b with
      | nil => rfl
      | cons y b => exact absurd (List.cons_prefix_cons.mp h).1.symm (hb y List.mem_cons_self)
  | cons x a ih =>
      cases b with
      | nil => exact absurd (List.cons_prefix_cons.mp h).1 (ha x List.mem_cons_self)
      | cons y b =>
          obtain ⟨rfl, htail⟩ := List.cons_prefix_cons.mp h
          rw [ih (fun c hc => ha c (List.mem_cons_of_mem _ hc))
            (fun c hc => hb c (List.mem_cons_of_mem _ hc)) htail]

/-- A tag without blanks is found only where it stands. -/
theorem Token.WellFormed.wire_prefix_iff {t : Token} (ht : t.WellFormed) {kind : Kind}
    (hkind : kind ≠ .scalar) {key : Bytes} (hkey : IsKey key) (hwire : t.wire ≠ []) {rest : Bytes} :
    (Token.tag kind [] key []).wire <+: t.wire ++ rest ↔ t = .tag kind [] key [] := by
  constructor
  · intro h
    cases t with
    | literal s =>
        obtain ⟨c, s, rfl⟩ := List.exists_cons_of_ne_nil hwire
        have hc := (List.cons_prefix_cons.mp h).1
        exact absurd hc.symm (ht c List.mem_cons_self).2
    | tag kind' left key' right =>
        have hself : (Token.tag kind [] key []).WellFormed :=
          ⟨hkey, fun _ h => (List.not_mem_nil h).elim, fun _ h => (List.not_mem_nil h).elim⟩
        have heq : content kind [] key [] = content kind' left key' right := by
          refine @eq_of_braces _ _ rest (fun c hc => (content_bytes hself c hc).2.2)
            (fun c hc => (content_bytes ht c hc).2.2) ?_
          exact (List.cons_prefix_cons.mp (List.cons_prefix_cons.mp h).2).2
        obtain rfl : kind = kind' := by
          have hinner := head_inner ht
          have hinner' := head_inner hself
          have hhead := congrArg List.head? heq
          cases kind <;> cases kind' <;>
            first
            | rfl
            | exact absurd rfl hkind
            | exact absurd (Option.some.inj hhead) (by decide)
            | exact absurd hhead.symm hinner.1
            | exact absurd hhead.symm hinner.2
        have hinner : key = left ++ key' ++ right := by
          have := List.append_cancel_left heq
          simpa using this
        have hnil : ∀ blanks : Bytes, (∀ c ∈ blanks, isspace c = true) → (∀ c ∈ blanks, c ∈ key) →
            blanks = [] := by
          intro blanks hblanks hsub
          refine List.eq_nil_iff_forall_not_mem.mpr fun c hc => ?_
          exact Bool.false_ne_true ((hkey.bytes c (hsub c hc)).2.2.2.symm.trans (hblanks c hc))
        obtain rfl := hnil left ht.2.1 fun c hc => by simp [hinner, hc]
        obtain rfl := hnil right ht.2.2 fun c hc => by simp [hinner, hc]
        rw [hinner, List.nil_append, List.append_nil]
  · rintro rfl
    exact List.prefix_append _ _

/-- The search for a tag goes over the other tokens. -/
theorem strstrAt_token {text rest : Bytes} {p : ℕ} {t : Token} (ht : t.WellFormed)
    (h : text.drop p = t.wire ++ rest) {kind : Kind} (hkind : kind ≠ .scalar) {key : Bytes}
    (hkey : IsKey key) (hne : t ≠ .tag kind [] key []) :
    strstrAt text p (Token.tag kind [] key []).wire =
      strstrAt text (p + t.wire.length) (Token.tag kind [] key []).wire := by
  by_cases hwire : t.wire = []
  · rw [hwire, List.length_nil, Nat.add_zero]
  · refine strstrAt_append h (ht.free ⟨_, rfl⟩ ?_) ht.zero_notMem
    rw [ht.wire_prefix_iff hkind hkey hwire]
    exact hne

theorem strstrAt_openTag {text rest : Bytes} {p : ℕ} {t : Token} (ht : t.WellFormed)
    (h : text.drop p = t.wire ++ rest) {key : Bytes} (hkey : IsKey key) (hne : t ≠ openTok key) :
    strstrAt text p (openTag key) = strstrAt text (p + t.wire.length) (openTag key) := by
  rw [← wire_openTok]
  exact strstrAt_token ht h (fun hscalar => Kind.noConfusion hscalar) hkey hne

theorem strstrAt_closeTag {text rest : Bytes} {p : ℕ} {t : Token} (ht : t.WellFormed)
    (h : text.drop p = t.wire ++ rest) {key : Bytes} (hkey : IsKey key) (hne : t ≠ closeTok key) :
    strstrAt text p (closeTag key) = strstrAt text (p + t.wire.length) (closeTag key) := by
  rw [← wire_closeTok]
  exact strstrAt_token ht h (fun hscalar => Kind.noConfusion hscalar) hkey hne

/-- The search for any tag goes over text. -/
theorem strstrAt_literal {text s rest : Bytes} {p : ℕ} (hs : (Token.literal s).WellFormed)
    (h : text.drop p = s ++ rest) :
    strstrAt text p [0x7B, 0x7B] = strstrAt text (p + s.length) [0x7B, 0x7B] := by
  cases s with
  | nil => rfl
  | cons c s =>
      refine strstrAt_append h (hs.free List.prefix_rfl fun hprefix => ?_) hs.zero_notMem
      exact (hs c List.mem_cons_self).2 (List.cons_prefix_cons.mp hprefix).1.symm

/-! ### The end of a section -/

/-- The depth behind a token. -/
def nextDepth (key : Bytes) (depth : ℕ) (t : Token) : ℕ :=
  if t = closeTok key then depth - 1 else if t = openTok key then depth + 1 else depth

/-- `TemplateEngine_findSectionEnd` on tokens: the tokens of the section, and those behind its end. -/
def findClose (key : Bytes) : ℕ → List Token → Option (List Token × List Token)
  | _, [] => none
  | depth, t :: ts =>
      if t = closeTok key ∧ depth = 0 then some ([], ts)
      else (findClose key (nextDepth key depth t) ts).map (Prod.map (t :: ·) id)

theorem openTok_ne_closeTok (key : Bytes) : openTok key ≠ closeTok key := nofun

/-- The depth behind a token, by the two counts. -/
theorem nextDepth_add_count {key : Bytes} {depth : ℕ} {t : Token} (h : ¬(t = closeTok key ∧ depth = 0))
    (ts : List Token) :
    nextDepth key depth t + ts.count (openTok key) + (t :: ts).count (closeTok key) =
      depth + (t :: ts).count (openTok key) + ts.count (closeTok key) := by
  simp only [nextDepth, List.count_cons, beq_iff_eq]
  have hne := openTok_ne_closeTok key
  by_cases hclose : t = closeTok key
  · have hdepth : depth ≠ 0 := fun h0 => h ⟨hclose, h0⟩
    rw [if_pos hclose, if_pos hclose, if_neg (by rw [hclose]; exact hne.symm)]
    omega
  · rw [if_neg hclose, if_neg hclose]
    split_ifs <;> omega

/-! The search, token by token. -/

theorem findClose_end (key : Bytes) (ts : List Token) :
    findClose key 0 (closeTok key :: ts) = some ([], ts) := by
  rw [findClose, if_pos ⟨rfl, rfl⟩]

theorem findClose_close (key : Bytes) (depth : ℕ) (ts : List Token) :
    findClose key (depth + 1) (closeTok key :: ts) =
      (findClose key depth ts).map (Prod.map (closeTok key :: ·) id) := by
  rw [findClose, if_neg fun h => Nat.succ_ne_zero depth h.2, nextDepth, if_pos rfl, Nat.add_sub_cancel]

theorem findClose_open (key : Bytes) (depth : ℕ) (ts : List Token) :
    findClose key depth (openTok key :: ts) =
      (findClose key (depth + 1) ts).map (Prod.map (openTok key :: ·) id) := by
  have hne := openTok_ne_closeTok key
  rw [findClose, if_neg fun h => hne h.1, nextDepth, if_neg hne, if_pos rfl]

theorem findClose_other {key : Bytes} {t : Token} (hclose : t ≠ closeTok key) (hopen : t ≠ openTok key)
    (depth : ℕ) (ts : List Token) :
    findClose key depth (t :: ts) = (findClose key depth ts).map (Prod.map (t :: ·) id) := by
  rw [findClose, if_neg fun h => hclose h.1, nextDepth, if_neg hclose, if_neg hopen]

/-- The section ends at a closing tag: there are as many opening tags before it as closing ones, and nowhere
before it more closing ones. -/
theorem findClose_some {key : Bytes} {depth : ℕ} {ts body rest : List Token}
    (h : findClose key depth ts = some (body, rest)) :
    ts = body ++ closeTok key :: rest ∧ depth + body.count (openTok key) = body.count (closeTok key) ∧
      ∀ p, p <+: body → p.count (closeTok key) ≤ depth + p.count (openTok key) := by
  induction ts generalizing depth body with
  | nil => cases h
  | cons t ts ih =>
      rw [findClose] at h
      split_ifs at h with hend
      · obtain ⟨rfl, rfl⟩ := hend
        obtain ⟨rfl, rfl⟩ := Prod.ext_iff.mp (Option.some.inj h)
        refine ⟨rfl, rfl, fun p hp => ?_⟩
        rw [List.prefix_nil.mp hp]
        simp
      · obtain ⟨⟨tail, rest'⟩, hrec, hpair⟩ := Option.map_eq_some_iff.mp h
        obtain ⟨rfl, rfl⟩ := Prod.ext_iff.mp hpair
        obtain ⟨rfl, hcount, hle⟩ := ih hrec
        refine ⟨rfl, ?_, fun p hp => ?_⟩
        · have := nextDepth_add_count hend tail
          simp only [Prod.map_fst]
          omega
        · rcases List.prefix_cons_iff.mp hp with rfl | ⟨q, rfl, hq⟩
          · simp
          · have := nextDepth_add_count hend q
            have := hle q hq
            omega

/-- A round of the loop. -/
theorem findSectionEndLoop_round (text key : Bytes) {stop p : ℕ} (hp : p < stop) (depth : ℕ) :
    findSectionEndLoop text key stop depth p = (strstrAt text p (closeTag key)).bind fun nextClose =>
      if nextClose ≥ stop then none
      else ((strstrAt text p (openTag key)).filter (· < nextClose)).elim
        (if depth = 0 then some nextClose
          else findSectionEndLoop text key stop (depth - 1) (nextClose + (closeTag key).length))
        fun nextOpen => findSectionEndLoop text key stop (depth + 1) (nextOpen + (openTag key).length) := by
  rw [findSectionEndLoop, if_pos hp]
  split
  · rename_i hclose
    rw [hclose]
    rfl
  · rename_i nextClose hclose
    rw [hclose, Option.bind_some]
    split_ifs
    · rfl
    all_goals
      split <;> rename_i hopen <;> rw [hopen] <;> rfl

/-- The loop does not see what it goes over. -/
theorem findSectionEndLoop_skip {text key : Bytes} {stop p q : ℕ} (hpq : p ≤ q) (hq : q ≤ stop)
    (hclose : strstrAt text p (closeTag key) = strstrAt text q (closeTag key))
    (hopen : strstrAt text p (openTag key) = strstrAt text q (openTag key)) (depth : ℕ) :
    findSectionEndLoop text key stop depth p = findSectionEndLoop text key stop depth q := by
  rcases hq.eq_or_lt with rfl | hlt
  · rcases hpq.eq_or_lt with rfl | hlt
    · rfl
    · rw [findSectionEndLoop_round text key hlt, findSectionEndLoop, if_neg (lt_irrefl q), hclose]
      cases hfind : strstrAt text q (closeTag key) with
      | none => rfl
      | some nextClose => rw [Option.bind_some, if_pos (le_of_strstrAt hfind)]
  · rw [findSectionEndLoop_round text key hlt, findSectionEndLoop_round text key (lt_of_le_of_lt hpq hlt),
      hclose, hopen]

/-- The loop at a closing tag. -/
theorem findSectionEndLoop_close {text key rest : Bytes} {stop p : ℕ}
    (h : text.drop p = (closeTok key).wire ++ rest) (hp : p < stop) (depth : ℕ) :
    findSectionEndLoop text key stop depth p =
      if depth = 0 then some p else findSectionEndLoop text key stop (depth - 1)
        (p + (closeTok key).wire.length) := by
  have hclose : strstrAt text p (closeTag key) = some p :=
    strstrAt_here (by simp [closeTag]) (by rw [h, wire_closeTok])
  have hopen : (strstrAt text p (openTag key)).filter (· < p) = none := by
    rw [Option.filter_eq_none_iff]
    intro i hi
    have := le_of_strstrAt hi
    simpa using this
  rw [findSectionEndLoop_round text key hp, hclose, Option.bind_some, if_neg (Nat.not_le.mpr hp), hopen,
    wire_closeTok]
  rfl

/-- The loop at an opening tag. -/
theorem findSectionEndLoop_open {text key rest : Bytes} (hkey : IsKey key) {stop p : ℕ}
    (ht : (openTok key).WellFormed) (h : text.drop p = (openTok key).wire ++ rest)
    (hp : p + (openTok key).wire.length ≤ stop) (depth : ℕ) :
    findSectionEndLoop text key stop depth p =
      findSectionEndLoop text key stop (depth + 1) (p + (openTok key).wire.length) := by
  have hpos : p < p + (openTok key).wire.length := by
    simp [wire_openTok, openTag]
  have hopen : strstrAt text p (openTag key) = some p :=
    strstrAt_here (by simp [openTag]) (by rw [h, wire_openTok])
  have hclose := strstrAt_closeTag ht h hkey (openTok_ne_closeTok key)
  rw [findSectionEndLoop_round text key (hpos.trans_le hp), hclose]
  cases hfind : strstrAt text (p + (openTok key).wire.length) (closeTag key) with
  | none =>
      rcases hp.eq_or_lt with hend | hlt
      · rw [findSectionEndLoop, if_neg hend.not_lt]
        rfl
      · rw [findSectionEndLoop_round text key hlt, hfind]
        rfl
  | some nextClose =>
      have hle := le_of_strstrAt hfind
      have hfilter : (some p).filter (· < nextClose) = some p := by
        simp only [Option.filter_some, decide_eq_true_eq, if_pos (hpos.trans_le hle)]
      by_cases hlt : nextClose ≥ stop
      · rw [Option.bind_some, if_pos hlt]
        rcases hp.eq_or_lt with hend | hlt'
        · rw [findSectionEndLoop, if_neg hend.not_lt]
        · rw [findSectionEndLoop_round text key hlt', hfind, Option.bind_some, if_pos hlt]
      · rw [Option.bind_some, if_neg hlt, hopen, hfilter, wire_openTok]
        rfl

/-- `TemplateEngine_findSectionEnd` on the text of tokens. -/
theorem findSectionEndLoop_tokens {text key rest : Bytes} (hkey : IsKey key) {ts : List Token}
    (hts : ∀ t ∈ ts, t.WellFormed) {p : ℕ} (h : text.drop p = wireOf ts ++ rest) (depth : ℕ) :
    findSectionEndLoop text key (p + (wireOf ts).length) depth p =
      (findClose key depth ts).map fun r => p + (wireOf r.1).length := by
  induction ts generalizing p depth with
  | nil =>
      rw [findSectionEndLoop, if_neg (by simp [wireOf])]
      rfl
  | cons t ts ih =>
      have ht := hts t List.mem_cons_self
      have hts' : ∀ t ∈ ts, t.WellFormed := fun t hmem => hts t (List.mem_cons_of_mem _ hmem)
      rw [wireOf, List.flatMap_cons, List.append_assoc] at h
      have hdrop : text.drop (p + t.wire.length) = wireOf ts ++ rest := by
        rw [← List.drop_drop, h, List.drop_left]
        rfl
      have hstop : p + (wireOf (t :: ts)).length = p + t.wire.length + (wireOf ts).length := by
        rw [wireOf, List.flatMap_cons, List.length_append, Nat.add_assoc, wireOf]
      have hrec := ih hts' hdrop (nextDepth key depth t)
      have hstep : ¬(t = closeTok key ∧ depth = 0) →
          findSectionEndLoop text key (p + (wireOf (t :: ts)).length) depth p =
            findSectionEndLoop text key (p + (wireOf (t :: ts)).length) (nextDepth key depth t)
              (p + t.wire.length) := by
        intro hend
        by_cases hclose : t = closeTok key
        · subst hclose
          have hdepth : depth ≠ 0 := fun h0 => hend ⟨rfl, h0⟩
          rw [findSectionEndLoop_close h (by rw [hstop]; simp [wire_closeTok, closeTag]; omega),
            if_neg hdepth, nextDepth, if_pos rfl]
        · by_cases hopen : t = openTok key
          · subst hopen
            rw [findSectionEndLoop_open hkey ht h (by omega), nextDepth, if_neg hclose, if_pos rfl]
          · rw [nextDepth, if_neg hclose, if_neg hopen]
            exact findSectionEndLoop_skip (Nat.le_add_right _ _) (by omega)
              (strstrAt_closeTag ht h hkey hclose)
              (strstrAt_openTag ht h hkey hopen) depth
      rw [findClose]
      split_ifs with hend
      · obtain ⟨rfl, rfl⟩ := hend
        rw [findSectionEndLoop_close h (by rw [hstop]; simp [wire_closeTok, closeTag]; omega), if_pos rfl]
        simp [wireOf]
      · rw [hstep hend, hstop, hrec, Option.map_map]
        congr 1
        funext r
        simp only [Function.comp, Prod.map_fst, wireOf, List.flatMap_cons, List.length_append,
          Nat.add_assoc]

theorem findSectionEnd_tokens {text key rest : Bytes} (hkey : IsKey key) {ts : List Token}
    (hts : ∀ t ∈ ts, t.WellFormed) {p : ℕ} (h : text.drop p = wireOf ts ++ rest) :
    findSectionEnd text p (p + (wireOf ts).length) key =
      (findClose key 0 ts).map fun r => p + (wireOf r.1).length := by
  have hlength := hkey.length_le
  rw [findSectionEnd, if_neg, findSectionEndLoop_tokens hkey hts h]
  simp only [openTag, closeTag, List.length_append, List.length_cons, List.length_nil]
  omega

/-! ### The renderer -/

theorem findClose_length {key : Bytes} {depth : ℕ} {ts body rest : List Token}
    (h : findClose key depth ts = some (body, rest)) :
    body.length < ts.length ∧ rest.length < ts.length := by
  obtain ⟨rfl, -⟩ := findClose_some h
  simp only [List.length_append, List.length_cons]
  omega

/-- What a key stands for in a section, or outside of one: the value of a scalar. -/
def scalarText (dbl : Double D) (ctx : Option (Obj D)) (key : Bytes) : Option Bytes :=
  (ctx.bind (nodeGet · key)).elim (some []) (renderValue dbl)

/-- The contexts of the rounds of a section. -/
def itemsOf (ctx : Option (Obj D)) (key : Bytes) : List (Obj D) :=
  (ctx.bind (nodeGet · key)).elim [] sectionItems

/-- `TemplateEngine_renderRange` on tokens. -/
def renderTokens (dbl : Double D) : List Token → Option (Obj D) → Option Bytes
  | [], _ => some []
  | .literal s :: ts, ctx => (renderTokens dbl ts ctx).map (s ++ ·)
  | .tag .scalar _ key _ :: ts, ctx =>
      (scalarText dbl ctx key).bind fun value => (renderTokens dbl ts ctx).map (value ++ ·)
  | .tag .closing _ _ _ :: ts, ctx => renderTokens dbl ts ctx
  | .tag .opening _ key _ :: ts, ctx =>
      match _hclose : findClose key 0 ts with
      | none => none
      | some (body, rest) =>
          (renderItems (fun item => renderTokens dbl body (some item)) (itemsOf ctx key)).bind fun out =>
            (renderTokens dbl rest ctx).map (out ++ ·)
termination_by ts => ts.length
decreasing_by
  all_goals
    first
    | exact Nat.lt_succ_self _
    | exact (findClose_length _hclose).1.trans (Nat.lt_succ_self _)
    | exact (findClose_length _hclose).2.trans (Nat.lt_succ_self _)

theorem renderTokens_opening (dbl : Double D) (left key right : Bytes) (ts : List Token)
    (ctx : Option (Obj D)) :
    renderTokens dbl (.tag .opening left key right :: ts) ctx =
      (findClose key 0 ts).bind fun r =>
        (renderItems (fun item => renderTokens dbl r.1 (some item)) (itemsOf ctx key)).bind fun out =>
          (renderTokens dbl r.2 ctx).map (out ++ ·) := by
  rw [renderTokens]
  split
  · rename_i hclose
    rw [hclose]
    rfl
  · rename_i body rest hclose
    rw [hclose]
    rfl

/-! The next tag in the text of tokens. -/

section Text

variable {text rest : Bytes} {stop p : ℕ}

theorem slice_eq_take (text : Bytes) (a b : ℕ) : slice text a b = (text.drop a).take (b - a) :=
  List.drop_take

theorem slice_drop {w : Bytes} (h : text.drop p = w ++ rest) : slice text p (p + w.length) = w := by
  rw [slice_eq_take, h, Nat.add_sub_cancel_left, List.take_left]

theorem drop_add {w : Bytes} (h : text.drop p = w ++ rest) : text.drop (p + w.length) = rest := by
  rw [← List.drop_drop, h, List.drop_left]

theorem getElem?_of_drop {w : Bytes} (h : text.drop p = w ++ rest) (hw : w ≠ []) : text[p]? = w.head? := by
  obtain ⟨c, w, rfl⟩ := List.exists_cons_of_ne_nil hw
  rw [← Nat.add_zero p, ← List.getElem?_drop, h]
  rfl

theorem slice_append {w : Bytes} (h : text.drop p = w ++ rest) {q : ℕ} (hq : p + w.length ≤ q) :
    slice text p q = w ++ slice text (p + w.length) q := by
  have hlength : w.length ≤ q - p := by omega
  rw [slice_eq_take, slice_eq_take, h, drop_add h, List.take_append, List.take_of_length_le hlength,
    Nat.sub_sub]

/-- The text before a tag. -/
theorem nextTag_literal {s : Bytes} (hs : (Token.literal s).WellFormed) (h : text.drop p = s ++ rest)
    (hstop : p + s.length ≤ stop) :
    nextTag text stop p = Prod.map (s ++ ·) id (nextTag text stop (p + s.length)) := by
  rw [nextTag, nextTag, strstrAt_literal hs h]
  cases hopen : strstrAt text (p + s.length) [0x7B, 0x7B] with
  | none => simp only [slice_append h hstop, Prod.map_apply, id]
  | some tagStart =>
      have hle := le_of_strstrAt hopen
      simp only
      split_ifs
      · simp only [slice_append h hstop, Prod.map_apply, id]
      · cases strstrAt text (tagStart + 2) [0x7D, 0x7D] with
        | none => simp only [slice_append h hle, Prod.map_apply, id]
        | some tagEnd =>
            simp only
            split_ifs <;> simp only [slice_append h hle, Prod.map_apply, id]

/-- What a tag of the text is for the renderer. -/
def tagOf (text : Bytes) (stop : ℕ) (kind : Kind) (key : Bytes) (p : ℕ) : Tag :=
  match kind with
  | .scalar => .scalar key p
  | .closing => .closing p
  | .opening =>
      match findSectionEnd text p stop key with
      | none => .bad
      | some sectionEnd => .section key p sectionEnd (sectionEnd + (closeTag key).length)

theorem tagBetween_content {kind : Kind} {left key right : Bytes}
    (ht : (Token.tag kind left key right).WellFormed)
    (h : text.drop p = content kind left key right ++ rest) :
    tagBetween text stop p (p + (content kind left key right).length) =
      tagOf text stop kind key (p + (content kind left key right).length + 2) := by
  have htrim := trimKey_inner ht
  have hhead := head_inner ht
  have hne : left ++ key ++ right ≠ [] := by
    intro hnil
    rw [hnil] at htrim
    exact ht.1.ne_nil htrim.symm
  have hkey : ¬(key = [] ∨ key.length > templateKeyMax) :=
    not_or.mpr ⟨ht.1.ne_nil, Nat.not_lt.mpr ht.1.length_le⟩
  cases kind with
  | scalar =>
      have hinner : text.drop p = left ++ key ++ right ++ rest := h
      have hfirst := getElem?_of_drop hinner hne
      have hslice := slice_drop hinner
      simp only [tagBetween, content, Kind.sigil, List.nil_append, hfirst, decide_eq_false hhead.1,
        Bool.false_eq_true, if_false, if_neg hhead.2, hslice, htrim, if_neg hkey]
      rfl
  | opening =>
      have hsigil : text.drop p = [0x23] ++ (left ++ key ++ right ++ rest) := h
      have hdrop : text.drop (p + 1) = left ++ key ++ right ++ rest := drop_add hsigil
      have hsection : text[p]? = some 0x23 := getElem?_of_drop hsigil (List.cons_ne_nil _ _)
      have hfirst := getElem?_of_drop hdrop hne
      have hend : p + (content .opening left key right).length = p + 1 + (left ++ key ++ right).length := by
        rw [content, Kind.sigil, List.length_append, List.length_singleton, Nat.add_assoc]
      have hslice := slice_drop hdrop
      simp only [tagBetween, hsection, decide_true, if_true, hfirst, if_neg hhead.2, hend, hslice, htrim,
        if_neg hkey]
      rfl
  | closing =>
      have hsigil : text.drop p = [0x2F] ++ (left ++ key ++ right ++ rest) := h
      have hclosing : text[p]? = some 0x2F := getElem?_of_drop hsigil (List.cons_ne_nil _ _)
      simp [tagBetween, tagOf, hclosing]

/-- A tag in the text. -/
theorem nextTag_tag {kind : Kind} {left key right : Bytes} (ht : (Token.tag kind left key right).WellFormed)
    (h : text.drop p = (Token.tag kind left key right).wire ++ rest)
    (hstop : p + (Token.tag kind left key right).wire.length ≤ stop) :
    nextTag text stop p =
      ([], tagOf text stop kind key (p + (Token.tag kind left key right).wire.length)) := by
  have hlength : p + (Token.tag kind left key right).wire.length =
      p + 2 + (content kind left key right).length + 2 := by
    simp only [Token.wire, List.length_cons, List.length_append, List.length_nil]
    omega
  have hbraces : text.drop p = [0x7B, 0x7B] ++ (content kind left key right ++ ([0x7D, 0x7D] ++ rest)) := by
    rw [h, Token.wire]
    simp only [List.cons_append, List.nil_append, List.append_assoc]
  have hcontent : text.drop (p + 2) = content kind left key right ++ ([0x7D, 0x7D] ++ rest) :=
    drop_add hbraces
  have hend : strstrAt text (p + 2) [0x7D, 0x7D] = some (p + 2 + (content kind left key right).length) := by
    rw [strstrAt_append hcontent]
    · exact strstrAt_here (List.cons_ne_nil _ _) (drop_add hcontent)
    · intro a b hw hb hprefix
      obtain ⟨c, b, rfl⟩ := List.exists_cons_of_ne_nil hb
      have hc := content_bytes ht c (by rw [hw]; simp)
      exact hc.2.2 (List.cons_prefix_cons.mp hprefix).1.symm
    · exact fun hmem => (content_bytes ht 0 hmem).1 rfl
  rw [nextTag, strstrAt_here (List.cons_ne_nil _ _) hbraces]
  simp only [hend]
  rw [if_neg (by omega), if_neg (by omega), slice_eq_take, Nat.sub_self, List.take_zero, hlength,
    tagBetween_content ht hcontent]

/-- At its end the range has no tag. -/
theorem nextTag_stop (text : Bytes) (p : ℕ) : nextTag text p p = ([], .last) := by
  have hslice : slice text p p = [] := by rw [slice_eq_take, Nat.sub_self, List.take_zero]
  rw [nextTag]
  cases hopen : strstrAt text p [0x7B, 0x7B] with
  | none => rw [hslice]
  | some tagStart => simp only [if_pos (le_of_strstrAt hopen), hslice]

/-- The renderer copies the text before a tag. -/
theorem renderRange_literal (dbl : Double D) (ctx : Option (Obj D)) {s : Bytes}
    (hs : (Token.literal s).WellFormed) (h : text.drop p = s ++ rest) (hstop : p + s.length ≤ stop) :
    renderRange (tplBuilder dbl) text stop ctx p =
      (renderRange (tplBuilder dbl) text stop ctx (p + s.length)).map (s ++ ·) := by
  have hnext := nextTag_literal hs h hstop
  rcases (Nat.le_add_right p s.length).eq_or_lt with heq | hlt
  · obtain rfl : s = [] := by simpa using heq.symm
    simp
  · have hp := hlt.trans_le hstop
    have hsnd : (nextTag text stop p).2 = (nextTag text stop (p + s.length)).2 := by rw [hnext]; rfl
    have hfst : (nextTag text stop p).1 = s ++ (nextTag text stop (p + s.length)).1 := by rw [hnext]; rfl
    rcases hstop.eq_or_lt with rfl | hq
    · have hlast := nextTag_stop text (p + s.length)
      rw [renderRange_last _ _ hp (by rw [hsnd, hlast]), renderRange_done _ _ (lt_irrefl _), hfst, hlast]
      rfl
    · cases htag : (nextTag text stop (p + s.length)).2 with
      | last =>
          rw [renderRange_last _ _ hp (hsnd.trans htag), renderRange_last _ _ hq htag, hfst]
          rfl
      | unclosed q =>
          rw [renderRange_unclosed _ _ hp (hsnd.trans htag), renderRange_unclosed _ _ hq htag, hfst]
          simp [tplBuilder, Function.comp_def]
      | closing q =>
          rw [renderRange_closing _ _ hp (hsnd.trans htag), renderRange_closing _ _ hq htag, hfst]
          simp [tplBuilder, Function.comp_def]
      | bad =>
          rw [renderRange_bad _ _ hp (hsnd.trans htag), renderRange_bad _ _ hq htag]
          rfl
      | scalar key q =>
          rw [renderRange_scalar _ _ hp (hsnd.trans htag), renderRange_scalar _ _ hq htag, hfst]
          simp [tplBuilder, Function.comp_def, Option.map_bind]
      | «section» key start sectionEnd q =>
          rw [renderRange_section _ _ hp (hsnd.trans htag), renderRange_section _ _ hq htag, hfst]
          simp [tplBuilder, Function.comp_def, Option.map_bind]

/-- The renderer on the text of tokens. -/
theorem renderRange_tokens (dbl : Double D) (ctx : Option (Obj D)) {ts : List Token}
    (hts : ∀ t ∈ ts, t.WellFormed) {rest : Bytes} {p : ℕ} (h : text.drop p = wireOf ts ++ rest) :
    renderRange (tplBuilder dbl) text (p + (wireOf ts).length) ctx p = renderTokens dbl ts ctx := by
  fun_induction renderTokens dbl ts ctx generalizing p rest with
  | case1 ctx => exact renderRange_done _ _ (by simp [wireOf])
  | case2 s ts ctx ih =>
      have hdrop : text.drop p = s ++ (wireOf ts ++ rest) :=
        by rw [h, wireOf_cons, List.append_assoc, Token.wire]
      rw [wireOf_cons, List.length_append, ← Nat.add_assoc, Token.wire,
        renderRange_literal dbl ctx (hts _ List.mem_cons_self) hdrop (Nat.le_add_right _ _)]
      exact congrArg _ (ih (fun t ht => hts t (List.mem_cons_of_mem _ ht)) (drop_add hdrop))
  | case3 left key right ts ctx ih =>
      have hdrop := h
      rw [wireOf_cons, List.append_assoc] at hdrop
      have htag := nextTag_tag (hts _ List.mem_cons_self) hdrop (Nat.le_add_right _ (wireOf ts).length)
      rw [wireOf_cons, List.length_append, ← Nat.add_assoc,
        renderRange_scalar _ _ (by simp [Token.wire]; omega) (by rw [htag]; rfl), htag,
        ih (fun t ht => hts t (List.mem_cons_of_mem _ ht)) (drop_add hdrop)]
      rfl
  | case4 left key right ts ctx ih =>
      have hdrop := h
      rw [wireOf_cons, List.append_assoc] at hdrop
      have htag := nextTag_tag (hts _ List.mem_cons_self) hdrop (Nat.le_add_right _ (wireOf ts).length)
      rw [wireOf_cons, List.length_append, ← Nat.add_assoc,
        renderRange_closing _ _ (by simp [Token.wire]; omega) (by rw [htag]; rfl), htag,
        ih (fun t ht => hts t (List.mem_cons_of_mem _ ht)) (drop_add hdrop)]
      simp [tplBuilder]
  | case5 left key right ts ctx hclose =>
      have hopen := hts _ List.mem_cons_self
      rw [wireOf_cons, List.append_assoc] at h
      have htag := nextTag_tag hopen h (Nat.le_add_right _ (wireOf ts).length)
      have hend := findSectionEnd_tokens hopen.1 (fun t ht => hts t (List.mem_cons_of_mem _ ht))
        (drop_add h)
      rw [tagOf, hend, hclose] at htag
      rw [wireOf_cons, List.length_append, ← Nat.add_assoc,
        renderRange_bad _ _ (by simp [Token.wire]; omega) (by rw [htag]; rfl)]
  | case6 left key right ts ctx body behind hclose ihbody ihrest =>
      have hopen := hts _ List.mem_cons_self
      have hts' : ∀ t ∈ ts, t.WellFormed := fun t ht => hts t (List.mem_cons_of_mem _ ht)
      rw [wireOf_cons, List.append_assoc] at h
      have htag := nextTag_tag hopen h (Nat.le_add_right _ (wireOf ts).length)
      have hend := findSectionEnd_tokens hopen.1 hts' (drop_add h)
      obtain ⟨rfl, -⟩ := findClose_some hclose
      rw [tagOf, hend, hclose] at htag
      have hbody := drop_add h
      rw [wireOf_append, List.append_assoc, wireOf_cons, wire_closeTok, List.append_assoc] at hbody
      have hrest := drop_add (drop_add hbody)
      have hstop : ∀ q, q + (wireOf (body ++ closeTok key :: behind)).length =
          q + (wireOf body).length + (closeTag key).length + (wireOf behind).length := by
        intro q
        rw [wireOf_append, wireOf_cons, wire_closeTok, List.length_append, List.length_append]
        omega
      have hbodies : (fun item => renderTokens dbl body (some item)) = fun item =>
          renderRange (tplBuilder dbl) text (p + (Token.tag .opening left key right).wire.length +
            (wireOf body).length)
            (some item) (p + (Token.tag .opening left key right).wire.length) := by
        funext item
        exact (ihbody item (fun t ht => hts' t (List.mem_append_left _ ht)) hbody).symm
      have hbehind := ihrest (fun t ht => hts' t
        (List.mem_append_right _ (List.mem_cons_of_mem _ ht))) hrest
      rw [wireOf_cons, List.length_append, ← Nat.add_assoc,
        renderRange_section _ _ (by simp [Token.wire]; omega) (by rw [htag]; rfl), htag, hstop, hbehind,
          hbodies]
      rfl

end Text

theorem zero_notMem_wireOf {ts : List Token} (hts : ∀ t ∈ ts, t.WellFormed) : 0 ∉ wireOf ts := by
  rw [wireOf, List.mem_flatMap]
  rintro ⟨t, hmem, h0⟩
  exact (hts t hmem).zero_notMem h0

/-- `TemplateEngine_render` on the text of tokens. -/
theorem render_wireOf (dbl : Double D) {ts : List Token} (hts : ∀ t ∈ ts, t.WellFormed)
    (ctx : Option (Obj D)) :
    render dbl (wireOf ts) ctx = renderTokens dbl ts ctx := by
  have hdrop : (wireOf ts).drop 0 = wireOf ts ++ [] := by rw [List.drop_zero, List.append_nil]
  have h := renderRange_tokens dbl ctx hts hdrop
  rw [Nat.zero_add] at h
  rw [render, cstr_of_zero_notMem (zero_notMem_wireOf hts), h]

end TemplateEngine
