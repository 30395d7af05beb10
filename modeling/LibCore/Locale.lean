import LibCore.CInt
import LibCore.Utf8

/-!
# Counting and Cutting UTF-8

`utf8_strlen` and `utf8_substr` of `locale.c` look for the bytes that do not continue a character and
count them. On well-formed text these are the characters: a text is measured and cut by characters, and
none is cut apart. The arguments are `int`, and nothing keeps them from being negative. The counts and the
size of the buffer are `int` as well: where one of them leaves the range the functions have no value here.

## Main results

* `utf8Substr_flatten`: what is cut out of a text, for all arguments.
* `utf8_cuts_characters`: the length, the cuts, and how they go together.
-/

open CString Utf8

namespace Locale

/-- Whether a byte starts a character. -/
def isCharStart (c : UInt8) : Bool := c &&& 0xC0 ≠ 0x80

/-- A round of `utf8_strlen`. -/
def countChar (length : ℤ) (c : UInt8) : Option ℤ :=
  if isCharStart c then if FitsInt (length + 1) then some (length + 1) else none else some length

/-- `utf8_strlen`. -/
def utf8Strlen (str : Bytes) : Option ℤ := (cstr str).foldlM countChar 0

/-- The loop of `utf8_substr`, with the text from `p` on: the texts from `p_start` on, if it is set, and
from `p_end` on. Behind the loop `p_end` is the end of the text if it has not been set. -/
def substrLoop (start len : ℤ) : Bytes → ℤ → Option Bytes → Option Bytes × Bytes
  | [], _, pStart => (pStart, [])
  | c :: s, currentChar, pStart =>
      if isCharStart c then
        let pStart := if currentChar = start then some (c :: s) else pStart
        if currentChar = start + len then (pStart, c :: s)
        else substrLoop start len s (currentChar + 1) pStart
      else substrLoop start len s currentChar pStart

/-- `utf8_substr`. The loop forms `start + len` at the first character. -/
def utf8Substr (str : Bytes) (start len : ℤ) : Option Bytes :=
  if (cstr str).any isCharStart ∧ ¬FitsInt (start + len) then none
  else
    match substrLoop start len (cstr str) 0 none with
    | (none, _) => some []
    | (some pStart, pEnd) =>
        let byteLen := intOfSize (pStart.length - pEnd.length)
        if FitsInt (byteLen + 1) ∧ 0 ≤ byteLen then some (pStart.take byteLen.toNat) else none

/-! ### Characters -/

/-- A character is a byte that starts it and bytes that continue it. -/
theorem IsChar.shape {c : Bytes} (h : IsChar c) :
    ∃ a tail, c = a :: tail ∧ isCharStart a = true ∧ ∀ b ∈ tail, isCharStart b = false := by
  cases c with
  | nil => exact absurd rfl h.ne_nil
  | cons a tail =>
      refine ⟨a, tail, rfl, ?_, fun b hb => ?_⟩
      · rw [isCharStart, decide_eq_true_eq]
        intro hcont
        exact h.not_isTail_head ((isCont_iff a).mp (by simpa [isCont] using hcont))
      · obtain ⟨p, q, rfl⟩ := List.append_of_mem hb
        have htail : IsTail b := IsChar.isTail_of_append (p := a :: p) h (by simp)
        simpa [isCharStart, isCont] using (isCont_iff b).mpr htail

/-- The loop passes over the rest of a character. -/
theorem substrLoop_tail (start len : ℤ) {tail : Bytes} (htail : ∀ b ∈ tail, isCharStart b = false)
    (s : Bytes) (cur : ℤ) (pStart : Option Bytes) :
    substrLoop start len (tail ++ s) cur pStart = substrLoop start len s cur pStart := by
  induction tail with
  | nil => rfl
  | cons b tail ih =>
      rw [List.cons_append, substrLoop, htail b List.mem_cons_self]
      exact ih fun b hb => htail b (List.mem_cons_of_mem _ hb)

/-- The loop at the start of a character. -/
theorem substrLoop_char (start len : ℤ) {c : Bytes} (hc : IsChar c) (s : Bytes) (cur : ℤ)
    (pStart : Option Bytes) :
    substrLoop start len (c ++ s) cur pStart =
      if cur = start + len then (if cur = start then some (c ++ s) else pStart, c ++ s)
      else substrLoop start len s (cur + 1) (if cur = start then some (c ++ s) else pStart) := by
  obtain ⟨a, tail, rfl, ha, htail⟩ := IsChar.shape hc
  rw [List.cons_append, substrLoop, ha, if_pos rfl]
  simp only
  split_ifs
  · rfl
  · rfl
  · exact substrLoop_tail start len htail ..
  · exact substrLoop_tail start len htail ..

theorem drop_cons_toNat {α : Type} (a : α) (l : List α) {n cur : ℤ} (h : cur + 1 ≤ n) :
    (a :: l).drop (n - cur).toNat = l.drop (n - (cur + 1)).toNat := by
  rw [show (n - cur).toNat = (n - (cur + 1)).toNat + 1 by omega, List.drop_succ_cons]

/-- **The loop**, character by character: `p_end` stops it at `start + len`, and `p_start` is found on
the way there. -/
theorem substrLoop_flatten (start len : ℤ) {cs : List Bytes} (hcs : ∀ c ∈ cs, IsChar c) (cur : ℤ)
    (pStart : Option Bytes) :
    substrLoop start len cs.flatten cur pStart =
      (if cur ≤ start ∧ start < cur + cs.length ∧ (start + len < cur ∨ 0 ≤ len) then
          some (cs.drop (start - cur).toNat).flatten else pStart,
        if cur ≤ start + len then (cs.drop (start + len - cur).toNat).flatten else []) := by
  induction cs generalizing cur pStart with
  | nil =>
      rw [List.flatten_nil, substrLoop, if_neg (by simp only [List.length_nil]; omega)]
      simp
  | cons c cs ih =>
      have hc := hcs c List.mem_cons_self
      rw [List.flatten_cons, substrLoop_char start len hc, ih fun d hd => hcs d (List.mem_cons_of_mem _ hd),
        List.length_cons]
      by_cases hend : cur = start + len
      · -- The loop stops here, and starts here if nothing is wanted.
        have hzero : (start + len - cur).toNat = 0 := by omega
        rw [if_pos hend, if_pos hend.le, hzero, List.drop_zero, List.flatten_cons]
        by_cases hstart : cur = start
        · have hfirst : (start - cur).toNat = 0 := by omega
          rw [if_pos hstart, if_pos (by omega), hfirst, List.drop_zero, List.flatten_cons]
        · rw [if_neg hstart, if_neg (by omega)]
      · rw [if_neg hend]
        refine Prod.ext ?_ ?_
        · simp only
          by_cases hstart : cur = start
          · have hzero : (start - cur).toNat = 0 := by omega
            rw [if_neg (by omega), if_pos hstart, if_pos (by omega), hzero, List.drop_zero, List.flatten_cons]
          · rw [if_neg hstart]
            by_cases hcond : cur + 1 ≤ start ∧ start < cur + 1 + cs.length ∧ (start + len < cur + 1 ∨ 0 ≤ len)
            · rw [if_pos hcond, if_pos (by omega), drop_cons_toNat _ _ hcond.1]
            · rw [if_neg hcond, if_neg (by omega)]
        · simp only
          by_cases hcond : cur + 1 ≤ start + len
          · rw [if_pos hcond, if_pos (by omega), drop_cons_toNat _ _ hcond]
          · rw [if_neg hcond, if_neg (by omega)]

/-! ### Texts -/

/-- The characters of a text have no NUL in them. -/
theorem cstr_flatten {str : Bytes} {cs : List Bytes} (hstr : cstr str = cs.flatten) {ds : List Bytes}
    (hds : ∀ d ∈ ds, d ∈ cs) : cstr ds.flatten = ds.flatten := by
  refine cstr_of_zero_notMem fun hzero => ?_
  obtain ⟨d, hd, hmem⟩ := List.mem_flatten.mp hzero
  have hin : (0 : UInt8) ∈ cstr str := hstr ▸ List.mem_flatten.mpr ⟨d, hds d hd, hmem⟩
  exact absurd (List.mem_takeWhile_imp hin) (by simp)

/-- The text between two characters. -/
theorem take_flatten_sub {α : Type} (cs : List (List α)) (n : ℕ) :
    cs.flatten.take (cs.flatten.length - (cs.drop n).flatten.length) = (cs.take n).flatten := by
  have hsplit : cs.flatten = (cs.take n).flatten ++ (cs.drop n).flatten := by
    rw [← List.flatten_append, List.take_append_drop]
  rw [hsplit, List.length_append, Nat.add_sub_cancel, List.take_left]

/-- The bytes of a piece of a short text can be counted. -/
theorem cut_of_length_lt {pStart pEnd : Bytes} (h : pStart.length < 2147483647) :
    (let byteLen := intOfSize (pStart.length - pEnd.length)
      if FitsInt (byteLen + 1) ∧ 0 ≤ byteLen then some (pStart.take byteLen.toNat) else none) =
      some (pStart.take (pStart.length - pEnd.length)) := by
  have hlen : intOfSize (pStart.length - pEnd.length) = (pStart.length - pEnd.length : ℕ) := by
    refine intOfSize_of_le ?_
    rw [intMax]
    omega
  simp only [hlen, Int.toNat_natCast]
  rw [if_pos]
  rw [FitsInt]
  omega

/-- **What is cut out of a text**, for all arguments. A negative length counts as zero, unless it
reaches back beyond the start of the text: then the rest of the text is cut out. -/
theorem utf8Substr_flatten {str : Bytes} {cs : List Bytes} (hcs : ∀ c ∈ cs, IsChar c)
    (hstr : cstr str = cs.flatten) (hsize : (cstr str).length < 2147483647) {start len : ℤ}
    (hfits : FitsInt (start + len)) :
    utf8Substr str start len =
      some (if start < 0 then []
      else if start + len < 0 then (cs.drop start.toNat).flatten
      else ((cs.drop start.toNat).take len.toNat).flatten) := by
  rw [utf8Substr, if_neg fun h => h.2 hfits, hstr, substrLoop_flatten start len hcs]
  simp only [sub_zero, zero_add]
  by_cases hcond : 0 ≤ start ∧ start < cs.length ∧ (start + len < 0 ∨ 0 ≤ len)
  · have hpiece : (cs.drop start.toNat).flatten.length < 2147483647 := by
      rw [hstr] at hsize
      exact ((List.drop_sublist _ _).flatten.length_le).trans_lt hsize
    rw [if_pos hcond, if_neg (show ¬ start < 0 by omega)]
    simp only
    by_cases hend : start + len < 0
    · rw [if_pos hend, if_neg (show ¬ 0 ≤ start + len by omega), cut_of_length_lt hpiece, List.length_nil,
        Nat.sub_zero, List.take_length]
    · rw [if_neg hend, if_pos (show 0 ≤ start + len by omega), cut_of_length_lt hpiece,
        show (start + len).toNat = start.toNat + len.toNat by omega, ← List.drop_drop, take_flatten_sub]
  · rw [if_neg hcond]
    simp only
    split_ifs with hneg hend
    · rfl
    · rw [List.drop_eq_nil_of_le (by omega), List.flatten_nil]
    · by_cases hlen : len ≤ 0
      · rw [show len.toNat = 0 by omega, List.take_zero, List.flatten_nil]
      · rw [List.drop_eq_nil_of_le (by omega), List.take_nil, List.flatten_nil]

/-- The bytes that continue a character do not count. -/
theorem foldlM_tail {tail : Bytes} (htail : ∀ b ∈ tail, isCharStart b = false) (n : ℤ) :
    tail.foldlM countChar n = some n := by
  induction tail with
  | nil => rfl
  | cons b tail ih =>
      rw [List.foldlM_cons, countChar, htail b List.mem_cons_self]
      exact ih fun b hb => htail b (List.mem_cons_of_mem _ hb)

/-- Every character has a byte. -/
theorem length_le_flatten {cs : List Bytes} (hcs : ∀ c ∈ cs, IsChar c) : cs.length ≤ cs.flatten.length := by
  induction cs with
  | nil => exact le_rfl
  | cons c cs ih =>
      have hpos := List.length_pos_of_ne_nil (hcs c List.mem_cons_self).ne_nil
      have hrest := ih fun d hd => hcs d (List.mem_cons_of_mem _ hd)
      rw [List.flatten_cons, List.length_append, List.length_cons]
      omega

/-- `utf8_strlen` counts characters. -/
theorem utf8Strlen_flatten {str : Bytes} {cs : List Bytes} (hcs : ∀ c ∈ cs, IsChar c)
    (hstr : cstr str = cs.flatten) (hsize : (cstr str).length < 2147483647) :
    utf8Strlen str = some (cs.length : ℤ) := by
  have hfold : ∀ (cs : List Bytes) (n : ℕ), (∀ c ∈ cs, IsChar c) → n + cs.length ≤ 2147483647 →
      cs.flatten.foldlM countChar (n : ℤ) = some ((n + cs.length : ℕ) : ℤ) := by
    intro cs
    induction cs with
    | nil => intro n _ _; rfl
    | cons c cs ih =>
        intro n hcs hle
        obtain ⟨a, tail, rfl, ha, htail⟩ := IsChar.shape (hcs c List.mem_cons_self)
        rw [List.length_cons] at hle ⊢
        have hfits : FitsInt ((n : ℤ) + 1) := by
          rw [FitsInt]
          omega
        have hrest := ih (n + 1) (fun d hd => hcs d (List.mem_cons_of_mem _ hd)) (by omega)
        rw [List.flatten_cons, List.cons_append, List.foldlM_cons, countChar, if_pos ha, if_pos hfits,
          Option.bind_eq_bind, Option.bind_some, List.foldlM_append, foldlM_tail htail, Option.bind_eq_bind,
          Option.bind_some, ← Nat.cast_add_one, hrest, Nat.add_right_comm, Nat.add_assoc]
  have hle := length_le_flatten hcs
  rw [← hstr] at hle
  rw [utf8Strlen, hstr, ← Nat.cast_zero, hfold cs 0 hcs (by omega), Nat.zero_add]

/-- **Texts are measured and cut by characters**, as far as `int` goes. The length of a text is the number of
its characters; whatever the arguments, what is cut out is a text again; the two parts of a text make the text;
and a cut from a cut is one cut. -/
theorem utf8_cuts_characters (str : Bytes) (cs : List Bytes) (hcs : ∀ c ∈ cs, IsChar c)
    (hstr : cstr str = cs.flatten) (hsize : (cstr str).length < 2147483647) :
    utf8Strlen str = some (cs.length : ℤ) ∧
    (∀ start len : ℕ, FitsInt (start + len) →
      utf8Substr str start len = some ((cs.drop start).take len).flatten) ∧
    (∀ start len : ℤ, FitsInt (start + len) →
      ∃ cut, utf8Substr str start len = some cut ∧ WellFormed cut) ∧
    (∀ k : ℕ, FitsInt (k + cs.length) → ∃ left right, utf8Substr str 0 k = some left ∧
      utf8Substr str k cs.length = some right ∧ left ++ right = cstr str) ∧
    ∀ i n j m : ℕ, FitsInt (i + n) → FitsInt (j + m) → FitsInt (i + j) →
      (utf8Substr str i n).bind (fun cut => utf8Substr cut j m) =
        utf8Substr str (i + j : ℕ) (min m (n - j) : ℕ) := by
  have hcut : ∀ start len : ℕ, FitsInt (start + len) →
      utf8Substr str start len = some ((cs.drop start).take len).flatten := by
    intro start len hfits
    rw [utf8Substr_flatten hcs hstr hsize hfits, if_neg (by omega), if_neg (by omega), Int.toNat_natCast,
      Int.toNat_natCast]
  have hwell : ∀ ds : List Bytes, (∀ d ∈ ds, d ∈ cs) → WellFormed ds.flatten := by
    intro ds
    induction ds with
    | nil => exact fun _ => .nil
    | cons d ds ih =>
        intro hds
        exact .cons (hcs d (hds d List.mem_cons_self)) (ih fun e he => hds e (List.mem_cons_of_mem _ he))
  refine ⟨utf8Strlen_flatten hcs hstr hsize, hcut, fun start len hfits => ?_, fun k hk => ?_,
    fun i n j m hin hjm hij => ?_⟩
  · refine ⟨_, utf8Substr_flatten hcs hstr hsize hfits, ?_⟩
    split_ifs
    · exact .nil
    · exact hwell _ fun d hd => List.mem_of_mem_drop hd
    · exact hwell _ fun d hd => List.mem_of_mem_drop (List.mem_of_mem_take hd)
  · have hfirst := hcut 0 k (by rw [FitsInt] at hk ⊢; omega)
    rw [Nat.cast_zero] at hfirst
    have hrest : (cs.drop k).take cs.length = cs.drop k := List.take_of_length_le (by simp)
    refine ⟨_, _, hfirst, hcut k cs.length hk, ?_⟩
    rw [List.drop_zero, hrest, ← List.flatten_append, List.take_append_drop, hstr]
  · have hmem : ∀ d ∈ (cs.drop i).take n, d ∈ cs := fun d hd =>
      List.mem_of_mem_drop (List.mem_of_mem_take hd)
    have hpiece : (cstr ((cs.drop i).take n).flatten).length < 2147483647 := by
      rw [cstr_flatten hstr hmem]
      rw [hstr] at hsize
      exact (((List.take_sublist _ _).trans (List.drop_sublist _ _)).flatten.length_le).trans_lt hsize
    have houter : FitsInt (((i + j : ℕ) : ℤ) + (min m (n - j) : ℕ)) := by
      rw [FitsInt] at hin hij ⊢
      omega
    rw [hcut i n hin, Option.bind_some,
      utf8Substr_flatten (fun d hd => hcs d (hmem d hd)) (cstr_flatten hstr hmem) hpiece hjm, if_neg (by omega),
      if_neg (by omega), Int.toNat_natCast, Int.toNat_natCast, hcut _ _ houter, List.drop_take, List.take_take,
      List.drop_drop]

/-- A letter of two bytes between two letters of one. -/
theorem utf8_cuts_characters_sample :
    utf8Strlen [0x41, 0xC3, 0xA9, 0x42, 0] = some 3 ∧
      utf8Substr [0x41, 0xC3, 0xA9, 0x42, 0] 1 1 = some [0xC3, 0xA9] := by
  obtain ⟨hlen, hcut, -⟩ := utf8_cuts_characters [0x41, 0xC3, 0xA9, 0x42, 0] [[0x41], [0xC3, 0xA9], [0x42]]
    (by decide) rfl (by decide)
  exact ⟨hlen, hcut 1 1 (by decide)⟩

end Locale
