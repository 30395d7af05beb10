import Mathlib.Data.List.Infix

/-!
# Searching a List

The first occurrence of a word in a list, as `memmem` finds it. The word of a delimiter often starts with
a mark that it does not contain again: such a word has no occurrence that starts in a part without the
mark, and none that starts in front of another one and overlaps it.

## Main results

* `memmem_skip`: a part without the mark is passed over.
* `memmem_guarded`: behind a part in which it does not occur, the word is found where it starts.
* `behind_skip`, `behind_hit`: the same for a word that ends with a mark, up to letter case.
* `behind_eq_some_iff`, `behind_barrier`: what is found is the first good occurrence, and none reaches
  over an element that the word does not have.
-/

namespace Search

variable {α : Type}

/-- An occurrence in front of another one does not overlap it. -/
theorem prefix_of_prefix_append {mark : α} {word : List α} (hword : mark ∉ word) {a s : List α} (hne : a ≠ [])
    (h : mark :: word <+: a ++ mark :: s) : mark :: word <+: a := by
  rcases List.prefix_or_prefix_of_prefix h (List.prefix_append a (mark :: s)) with h' | ⟨t, ht⟩
  · exact h'
  · obtain ⟨x, a, rfl⟩ := List.exists_cons_of_ne_nil hne
    cases t with
    | nil => exact ⟨[], by rw [← ht, List.append_nil, List.append_nil]⟩
    | cons y t =>
        -- the mark of the second occurrence would be inside of the first
        rw [← ht, List.prefix_append_right_inj] at h
        obtain ⟨rfl, -⟩ := List.cons_prefix_cons.mp h
        rw [← (List.cons.inj ht).2] at hword
        simp at hword

variable [DecidableEq α]

/-- `memmem`: the position of the first occurrence. -/
def memmem (needle : List α) : List α → Option ℕ
  | [] => if needle = [] then some 0 else none
  | a :: s => if needle <+: a :: s then some 0 else (memmem needle s).map (· + 1)

/-- A hit lies within the text. -/
theorem memmem_le {needle s : List α} {n : ℕ} (h : memmem needle s = some n) :
    n + needle.length ≤ s.length := by
  induction s generalizing n with
  | nil =>
      rw [memmem] at h
      split at h
      · obtain rfl := Option.some.inj h
        simp_all
      · cases h
  | cons a s ih =>
      rw [memmem] at h
      split at h
      · rename_i hprefix
        obtain rfl := Option.some.inj h
        simpa using hprefix.length_le
      · obtain ⟨n, hn, rfl⟩ := Option.map_eq_some_iff.mp h
        have hle := ih hn
        rw [List.length_cons]
        omega

theorem memmem_of_isPrefix {needle s : List α} (h : needle <+: s) : memmem needle s = some 0 := by
  cases s with
  | nil => rw [memmem, if_pos (List.prefix_nil.mp h)]
  | cons a s => rw [memmem, if_pos h]

theorem memmem_cons_of_not_isPrefix {needle s : List α} {a : α} (h : ¬needle <+: a :: s) :
    memmem needle (a :: s) = (memmem needle s).map (· + 1) := by
  rw [memmem, if_neg h]

section Mark

variable {mark : α} {word : List α}

/-- No occurrence starts in a part without the mark. -/
theorem memmem_skip {a : List α} (ha : mark ∉ a) (s : List α) :
    memmem (mark :: word) (a ++ s) = (memmem (mark :: word) s).map (a.length + ·) := by
  induction a with
  | nil => simp
  | cons x a ih =>
      rw [List.mem_cons, not_or] at ha
      have hne : ¬mark :: word <+: x :: (a ++ s) := fun h => ha.1 (List.cons_prefix_cons.mp h).1
      rw [List.cons_append, memmem_cons_of_not_isPrefix hne, ih ha.2, Option.map_map]
      congr 1
      funext n
      simp only [Function.comp_apply, List.length_cons]
      omega

/-- Behind a part in which it does not occur, the word is found where it starts. -/
theorem memmem_guarded (hword : mark ∉ word) {a : List α} (ha : ¬mark :: word <:+: a) (s : List α) :
    memmem (mark :: word) (a ++ (mark :: word ++ s)) = some a.length := by
  induction a with
  | nil => exact memmem_of_isPrefix (List.prefix_append _ _)
  | cons x a ih =>
      have hne : ¬mark :: word <+: x :: a ++ (mark :: word ++ s) := fun h =>
        ha (prefix_of_prefix_append hword (List.cons_ne_nil x a) h).isInfix
      rw [List.cons_append] at hne ⊢
      rw [memmem_cons_of_not_isPrefix hne, ih fun h => ha (h.trans (List.suffix_cons x a).isInfix)]
      rfl

end Mark

/-! ### Words that end with a mark -/

/-- Whether a list starts with a word, up to `fold`. -/
def startsWith (fold : α → α) (needle s : List α) : Bool := (s.take needle.length).map fold = needle

/-- What stands behind the first occurrence of a word that has a good element, or the start, before
it. -/
def behind (fold : α → α) (good : Option α → Bool) (needle : List α) :
    Option α → List α → Option (List α)
  | _, [] => none
  | before, a :: s =>
      if good before && startsWith fold needle (a :: s) then some ((a :: s).drop needle.length)
      else behind fold good needle (some a) s

/-! ### Occurrences up to letter case -/

section Occurrences

variable {fold : α → α} {good : Option α → Bool} {needle : List α}

/-- A good occurrence of a word: what stands before and behind it. -/
def Occurs (fold : α → α) (good : Option α → Bool) (needle : List α) (before : Option α)
    (s a b : List α) : Prop :=
  ∃ text, s = a ++ (text ++ b) ∧ text.map fold = needle ∧ good (a.getLast?.or before) = true

theorem startsWith_append {text b : List α} (h : text.map fold = needle) :
    startsWith fold needle (text ++ b) = true := by
  have hlen : text.length = needle.length := by rw [← h, List.length_map]
  rw [startsWith, ← hlen, List.take_left, decide_eq_true_eq]
  exact h

theorem map_take_of_startsWith {s : List α} (h : startsWith fold needle s = true) :
    (s.take needle.length).map fold = needle := by
  rwa [startsWith, decide_eq_true_eq] at h

omit [DecidableEq α] in
theorem getLast?_cons_or (x : α) (a : List α) (before : Option α) :
    (x :: a).getLast?.or before = a.getLast?.or (some x) := by
  cases a with
  | nil => rfl
  | cons y a => rw [List.getLast?_cons_cons, List.getLast?_eq_some_getLast (List.cons_ne_nil y a)]; rfl

/-- An occurrence in a list with one more element starts there, or it is one of the rest. -/
theorem occurs_cons_iff {before : Option α} {x : α} {s a b : List α} :
    Occurs fold good needle before (x :: s) a b ↔
      (a = [] ∧ good before = true ∧ startsWith fold needle (x :: s) = true ∧
        b = (x :: s).drop needle.length) ∨
      ∃ a', a = x :: a' ∧ Occurs fold good needle (some x) s a' b := by
  constructor
  · rintro ⟨text, heq, htext, hgood⟩
    cases a with
    | nil =>
        rw [List.nil_append] at heq
        have hlen : needle.length = text.length := by rw [← htext, List.length_map]
        rw [heq, hlen, List.drop_left]
        exact .inl ⟨rfl, hgood, startsWith_append htext, rfl⟩
    | cons y a =>
        obtain ⟨rfl, rfl⟩ := List.cons.inj heq
        exact .inr ⟨a, rfl, text, rfl, htext, getLast?_cons_or x a before ▸ hgood⟩
  · rintro (⟨rfl, hgood, hstart, rfl⟩ | ⟨a', rfl, text, rfl, htext, hgood⟩)
    · exact ⟨_, (List.take_append_drop ..).symm, map_take_of_startsWith hstart, hgood⟩
    · exact ⟨text, rfl, htext, getLast?_cons_or x a' before ▸ hgood⟩

/-- **The first good occurrence** is the one that is found. -/
theorem behind_eq_some_iff (hne : needle ≠ []) {before : Option α} {s b : List α} :
    behind fold good needle before s = some b ↔
      ∃ a, Occurs fold good needle before s a b ∧
        ∀ a' b', Occurs fold good needle before s a' b' → a.length ≤ a'.length := by
  induction s generalizing before with
  | nil =>
      refine iff_of_false (by simp [behind]) ?_
      rintro ⟨a, ⟨text, heq, htext, -⟩, -⟩
      obtain rfl : text = [] := by simp_all
      exact hne htext.symm
  | cons x s ih =>
      rw [behind]
      by_cases hhit : (good before && startsWith fold needle (x :: s)) = true
      · rw [if_pos hhit]
        rw [Bool.and_eq_true] at hhit
        have hfirst : Occurs fold good needle before (x :: s) [] ((x :: s).drop needle.length) :=
          occurs_cons_iff.mpr (.inl ⟨rfl, hhit.1, hhit.2, rfl⟩)
        constructor
        · intro heq
          exact ⟨[], Option.some.inj heq ▸ hfirst, fun a' b' _ => Nat.zero_le _⟩
        · rintro ⟨a, hoccurs, hleast⟩
          have ha := List.eq_nil_of_length_eq_zero (Nat.le_zero.mp (hleast _ _ hfirst))
          rcases occurs_cons_iff.mp hoccurs with ⟨-, -, -, rfl⟩ | ⟨a', ha', -⟩
          · rfl
          · rw [ha] at ha'
            cases ha'
      · rw [if_neg hhit, ih]
        rw [Bool.and_eq_true] at hhit
        have hrest : ∀ a b, Occurs fold good needle before (x :: s) a b ↔
            ∃ a', a = x :: a' ∧ Occurs fold good needle (some x) s a' b := by
          intro a b
          rw [occurs_cons_iff]
          exact or_iff_right fun h => hhit ⟨h.2.1, h.2.2.1⟩
        constructor
        · rintro ⟨a, hoccurs, hleast⟩
          refine ⟨x :: a, (hrest _ _).mpr ⟨a, rfl, hoccurs⟩, fun a' b' h' => ?_⟩
          obtain ⟨a'', rfl, h''⟩ := (hrest _ _).mp h'
          exact Nat.succ_le_succ (hleast a'' b' h'')
        · rintro ⟨a, hoccurs, hleast⟩
          obtain ⟨a', rfl, h'⟩ := (hrest _ _).mp hoccurs
          refine ⟨a', h', fun a'' b'' h'' => ?_⟩
          exact Nat.le_of_succ_le_succ (hleast _ b'' ((hrest _ _).mpr ⟨a'', rfl, h''⟩))

theorem behind_eq_none_iff (hne : needle ≠ []) {before : Option α} {s : List α} :
    behind fold good needle before s = none ↔ ∀ a b, ¬Occurs fold good needle before s a b := by
  induction s generalizing before with
  | nil =>
      refine iff_of_true rfl ?_
      rintro a b ⟨text, heq, htext, -⟩
      obtain rfl : text = [] := by simp_all
      exact hne htext.symm
  | cons x s ih =>
      rw [behind]
      by_cases hhit : (good before && startsWith fold needle (x :: s)) = true
      · rw [if_pos hhit]
        rw [Bool.and_eq_true] at hhit
        refine iff_of_false (by simp) fun hnone =>
          hnone [] ((x :: s).drop needle.length) ?_
        exact occurs_cons_iff.mpr (.inl ⟨rfl, hhit.1, hhit.2, rfl⟩)
      · rw [if_neg hhit, ih]
        rw [Bool.and_eq_true] at hhit
        constructor
        · intro hnone a b hoccurs
          rcases occurs_cons_iff.mp hoccurs with ⟨-, hgood, hstart, -⟩ | ⟨a', rfl, h'⟩
          · exact hhit ⟨hgood, hstart⟩
          · exact hnone a' b h'
        · exact fun hnone a b hoccurs =>
            hnone (x :: a) b (occurs_cons_iff.mpr (.inr ⟨a, rfl, hoccurs⟩))

/-- No occurrence reaches over an element that the word does not have. -/
theorem startsWith_barrier {q : α} (hq : fold q ∉ needle) {a : List α} (s : List α) :
    startsWith fold needle (a ++ q :: s) = startsWith fold needle a := by
  rw [startsWith, startsWith]
  by_cases hlen : needle.length ≤ a.length
  · rw [List.take_append_of_le_length hlen]
  · -- the word would have the element
    have hlong : ¬((a ++ q :: s).take needle.length).map fold = needle := by
      intro heq
      refine hq (heq ▸ List.mem_map.mpr ⟨q, ?_, rfl⟩)
      rw [List.take_append, List.take_of_length_le (by omega)]
      have hpos : needle.length - a.length = needle.length - a.length - 1 + 1 := by omega
      rw [hpos, List.take_succ_cons]
      simp
    have hshort : ¬(a.take needle.length).map fold = needle := by
      intro heq
      have := congrArg List.length heq
      rw [List.length_map, List.length_take] at this
      omega
    rw [decide_eq_false hlong, decide_eq_false hshort]

/-- **A barrier**: the search in front of such an element, and then behind it. -/
theorem behind_barrier (hne : needle ≠ []) {q : α} (hq : fold q ∉ needle) (before : Option α)
    (a s : List α) :
    behind fold good needle before (a ++ q :: s) =
      ((behind fold good needle before a).map (· ++ q :: s)).or
        (behind fold good needle (some q) s) := by
  induction a generalizing before with
  | nil =>
      have hno : startsWith fold needle (q :: s) = false := by
        rw [← List.nil_append (q :: s), startsWith_barrier hq]
        exact decide_eq_false fun h => hne (by simpa using h.symm)
      rw [List.nil_append, behind]
      simp [hno, behind]
  | cons x a ih =>
      rw [List.cons_append, behind, behind, ← List.cons_append, startsWith_barrier hq]
      by_cases hhit : (good before && startsWith fold needle (x :: a)) = true
      · have hlen : needle.length ≤ (x :: a).length := by
          rw [Bool.and_eq_true] at hhit
          have := congrArg List.length (map_take_of_startsWith hhit.2)
          rw [List.length_map, List.length_take] at this
          omega
        rw [if_pos hhit, if_pos hhit, List.drop_append_of_le_length hlen]
        rfl
      · rw [if_neg hhit, if_neg hhit, ih]

end Occurrences

section MarkedEnd

variable {fold : α → α} {good : Option α → Bool} {mark : α} {word : List α}

/-- The element of a list that stands where the word has its mark. -/
theorem startsWith_getElem? {needle s : List α} (h : startsWith fold needle s = true) {i : ℕ}
    (hi : i < needle.length) : s[i]?.map fold = needle[i]? := by
  have heq : (s.take needle.length).map fold = needle := by simpa [startsWith] using h
  rw [← heq, List.getElem?_map, List.getElem?_take_of_lt]
  simpa using hi

/-- An occurrence has its mark in the list. -/
theorem mark_mem_of_startsWith (hfold : ∀ x, fold x = mark → x = mark) {a s : List α}
    (hlt : word.length < a.length) (h : startsWith fold (word ++ [mark]) (a ++ s) = true) :
    mark ∈ a := by
  have hget := startsWith_getElem? h (i := word.length) (by simp)
  rw [List.getElem?_append_left hlt, List.getElem?_concat_length] at hget
  obtain ⟨x, hx, hmark⟩ := Option.map_eq_some_iff.mp hget
  rw [← hfold x hmark]
  exact List.mem_of_getElem? hx

/-- No occurrence is found without the mark. -/
theorem behind_none (hfold : ∀ x, fold x = mark → x = mark) {before : Option α} {s : List α}
    (hs : mark ∉ s) : behind fold good (word ++ [mark]) before s = none := by
  induction s generalizing before with
  | nil => rfl
  | cons x s ih =>
      have hne : ¬startsWith fold (word ++ [mark]) (x :: s) = true := by
        intro h
        have hget := startsWith_getElem? h (i := word.length) (by simp)
        rw [List.getElem?_concat_length] at hget
        obtain ⟨y, hy, hmark⟩ := Option.map_eq_some_iff.mp hget
        exact hs (hfold y hmark ▸ List.mem_of_getElem? hy)
      rw [behind, if_neg (by simp [hne])]
      exact ih fun h => hs (List.mem_cons_of_mem x h)

/-- A mark with something else than the word before it is passed over. -/
theorem behind_skip (hfold : ∀ x, fold x = mark ↔ x = mark) (hword : mark ∉ word) (hne : word ≠ [])
    {before : Option α} {a : List α} (ha : mark ∉ a) (hend : ¬word <:+ a.map fold) (s : List α) :
    behind fold good (word ++ [mark]) before (a ++ mark :: s) =
      behind fold good (word ++ [mark]) (some mark) s := by
  -- an occurrence that reaches over the mark has it inside of the word
  have hinside : ∀ a' : List α, mark ∉ a' → a'.length < word.length →
      ¬startsWith fold (word ++ [mark]) (a' ++ mark :: s) = true := by
    intro a' _ hlt h
    have hget := startsWith_getElem? h (i := a'.length) (by simp; omega)
    rw [List.getElem?_append_right (le_refl _), Nat.sub_self, List.getElem?_cons_zero, Option.map_some,
      (hfold mark).mpr rfl, List.getElem?_append_left hlt] at hget
    exact hword (List.mem_of_getElem? hget.symm)
  induction a generalizing before with
  | nil =>
      have hno := hinside [] (by simp) (List.length_pos_iff.mpr hne)
      rw [List.nil_append] at hno ⊢
      rw [behind, if_neg (by simp [hno])]
  | cons x a ih =>
      have hno : ¬startsWith fold (word ++ [mark]) (x :: a ++ mark :: s) = true := by
        intro h
        rcases Nat.lt_trichotomy (x :: a).length word.length with hlt | heq | hgt
        · exact hinside (x :: a) ha hlt h
        · refine hend ?_
          have htake : ((x :: a ++ mark :: s).take (word ++ [mark]).length).map fold = word ++ [mark] := by
            simpa [startsWith] using h
          rw [List.length_append, ← heq, List.take_append, List.map_append] at htake
          have hmap := (List.append_inj htake (by simp; simpa using heq)).1
          rw [List.take_of_length_le (by simp)] at hmap
          exact hmap ▸ List.suffix_refl _
        · exact ha (mark_mem_of_startsWith (fun y => (hfold y).mp) hgt h)
      rw [List.cons_append] at hno ⊢
      rw [behind, if_neg (by simp [hno])]
      refine ih (fun h => ha (List.mem_cons_of_mem x h)) fun h => hend ?_
      exact h.trans (by simp)

/-- The first mark ends the word: what stands behind it is found. -/
theorem behind_hit (hfold : ∀ x, fold x = mark ↔ x = mark) {before : Option α} {a w : List α}
    (haw : mark ∉ a ++ w) (hw : w.map fold = word) (hgood : good (a.getLast?.or before) = true)
    (s : List α) :
    behind fold good (word ++ [mark]) before (a ++ (w ++ mark :: s)) = some s := by
  induction a generalizing before with
  | nil =>
      have hlen : w.length = word.length := by rw [← hw, List.length_map]
      have hstart : startsWith fold (word ++ [mark]) (w ++ mark :: s) = true := by
        have htake : (w ++ mark :: s).take (word ++ [mark]).length = w ++ [mark] := by
          rw [List.length_append, ← hlen, List.take_append]
          simp
        rw [startsWith, htake]
        simp [hw, (hfold mark).mpr rfl]
      rw [List.nil_append]
      cases hws : w ++ mark :: s with
      | nil => simp at hws
      | cons x t =>
          rw [hws] at hstart
          rw [behind, if_pos (by simpa [hstart] using hgood), ← hws, List.length_append, ← hlen]
          simp
  | cons x a ih =>
      have hno : ¬startsWith fold (word ++ [mark]) (x :: a ++ w ++ mark :: s) = true := by
        intro h
        refine haw (mark_mem_of_startsWith (fun y => (hfold y).mp) ?_ h)
        rw [← hw]
        simp only [List.length_cons, List.length_append, List.length_map]
        omega
      rw [List.append_assoc, List.cons_append] at hno
      rw [List.cons_append, behind, if_neg (by simp [hno])]
      refine ih (fun h => haw (List.mem_cons_of_mem x h)) ?_
      cases a with
      | nil => simpa using hgood
      | cons y a =>
          rw [List.getLast?_cons_cons] at hgood
          rw [List.getLast?_eq_some_getLast (List.cons_ne_nil y a)] at hgood ⊢
          exact hgood

end MarkedEnd

end Search
