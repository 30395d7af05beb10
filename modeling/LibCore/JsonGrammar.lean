import LibCore.Json

/-!
# The JSON Grammar

The grammar of RFC 8259 over the bytes of a text in UTF-8, rule by rule: `ws`, the structural
characters with the blanks around them, `number`, `string` and `value`. Nothing here looks at
the parser.

A text of the grammar passes a scan that knows the borders of string literals and nothing else
(`strictFrom`): outside a literal no vertical tab, form feed or `x`, and a digit behind every
minus; inside a literal one of nine letters behind every backslash.

## Main definitions

* `Derives`, `JsonText`: the grammar.
* `strictFrom`: the scan.

## Main results

* `strictFrom_of_jsonText`: a text of the grammar passes the scan.
-/

open CString Utf8

namespace Json

/-! ### The grammar -/

/-- `ws`: blanks, tabs, line feeds and carriage returns. -/
def IsWs (s : Bytes) : Prop := ∀ c ∈ s, c = 0x20 ∨ c = 0x09 ∨ c = 0x0A ∨ c = 0x0D

/-- A structural character: `ws`, the character, `ws`. -/
def Structural (c : UInt8) (s : Bytes) : Prop := ∃ a b, IsWs a ∧ IsWs b ∧ s = a ++ c :: b

/-- `1*DIGIT`. -/
def IsDigits (s : Bytes) : Prop := s ≠ [] ∧ ∀ c ∈ s, isdigit c = true

/-- `int`: a zero, or digits of which the first one is not zero. -/
def IsInt (s : Bytes) : Prop := s = [0x30] ∨ (IsDigits s ∧ s.head? ≠ some 0x30)

/-- `frac`. -/
def IsFrac (s : Bytes) : Prop := ∃ digits, IsDigits digits ∧ s = 0x2E :: digits

/-- `exp`. -/
def IsExp (s : Bytes) : Prop :=
  ∃ e sign digits, (e = 0x65 ∨ e = 0x45) ∧ (sign = [] ∨ sign = [0x2B] ∨ sign = [0x2D]) ∧
    IsDigits digits ∧ s = e :: (sign ++ digits)

/-- `number`: an optional minus, `int`, and optionally `frac` and `exp`. -/
def IsNumber (s : Bytes) : Prop :=
  ∃ minus int frac exp, (minus = [] ∨ minus = [0x2D]) ∧ IsInt int ∧ (frac = [] ∨ IsFrac frac) ∧
    (exp = [] ∨ IsExp exp) ∧ s = minus ++ (int ++ (frac ++ exp))

/-- The letters behind a backslash, apart from `u`. -/
def escapeLetters : Bytes := ascii ['"', '\\', '/', 'b', 'f', 'n', 'r', 't']

/-- `*char`. -/
inductive IsChars : Bytes → Prop
  | nil : IsChars []
  | unescaped {c s : Bytes} : IsChar c → (∀ b ∈ c, 0x20 ≤ b ∧ b ≠ quote ∧ b ≠ backslash) →
      IsChars s → IsChars (c ++ s)
  | escape {d : UInt8} {s : Bytes} : d ∈ escapeLetters → IsChars s → IsChars (backslash :: d :: s)
  | unicode {digits s : Bytes} : digits.length = 4 → (∀ c ∈ digits, isxdigit c = true) →
      IsChars s → IsChars (backslash :: 0x75 :: (digits ++ s))

/-- `string`. -/
def IsString (s : Bytes) : Prop := ∃ body, IsChars body ∧ s = quote :: (body ++ [quote])

/-- The rules that call each other: a value, a member, and the lists of an object and an array. -/
inductive Symbol
  | value
  | member
  | members
  | elements

/-- The texts of a rule. -/
inductive Derives : Symbol → Bytes → Prop
  | false : Derives .value (ascii ['f', 'a', 'l', 's', 'e'])
  | null : Derives .value (ascii ['n', 'u', 'l', 'l'])
  | true : Derives .value (ascii ['t', 'r', 'u', 'e'])
  | number {s : Bytes} : IsNumber s → Derives .value s
  | string {s : Bytes} : IsString s → Derives .value s
  | emptyObject {a b : Bytes} : Structural 0x7B a → Structural 0x7D b → Derives .value (a ++ b)
  | object {a m b : Bytes} : Structural 0x7B a → Derives .members m → Structural 0x7D b →
      Derives .value (a ++ (m ++ b))
  | emptyArray {a b : Bytes} : Structural 0x5B a → Structural 0x5D b → Derives .value (a ++ b)
  | array {a e b : Bytes} : Structural 0x5B a → Derives .elements e → Structural 0x5D b →
      Derives .value (a ++ (e ++ b))
  | member {k a v : Bytes} : IsString k → Structural 0x3A a → Derives .value v →
      Derives .member (k ++ (a ++ v))
  | lastMember {m : Bytes} : Derives .member m → Derives .members m
  | moreMembers {m a ms : Bytes} : Derives .member m → Structural comma a → Derives .members ms →
      Derives .members (m ++ (a ++ ms))
  | lastElement {v : Bytes} : Derives .value v → Derives .elements v
  | moreElements {v a vs : Bytes} : Derives .value v → Structural comma a → Derives .elements vs →
      Derives .elements (v ++ (a ++ vs))

/-- `JSON-text`: `ws`, a value, `ws`. -/
def JsonText (s : Bytes) : Prop :=
  ∃ a v b, IsWs a ∧ Derives .value v ∧ IsWs b ∧ s = a ++ (v ++ b)

/-! ### The scan -/

/-- What may stand outside a literal, in front of `s`: no vertical tab, form feed or `x`, and a
minus only in front of a digit. -/
def strictByte (c : UInt8) (s : Bytes) : Bool :=
  c ≠ 0x0B && c ≠ 0x0C && c ≠ 0x78 && c ≠ 0x58 && (c ≠ 0x2D || s.head?.any isdigit)

/-- The letters behind a backslash. -/
def isEscape (d : UInt8) : Bool := d = 0x75 || escapeLetters.contains d

/-- The scan, outside (`false`) or inside (`true`) a literal. -/
def strictFrom : Bool → Bytes → Bool
  | _, [] => true
  | false, c :: s => strictByte c s && strictFrom (c = quote) s
  | true, c :: s =>
      if c = quote then strictFrom false s
      else if c = backslash then
        match s with
        | [] => true
        | d :: s => isEscape d && strictFrom true s
      else strictFrom true s

/-- A byte outside literals that never matters to the scan. -/
def isNeutral (c : UInt8) : Bool :=
  c ≠ 0x0B && c ≠ 0x0C && c ≠ 0x78 && c ≠ 0x58 && c ≠ 0x2D && c ≠ quote

theorem strictFrom_neutral {c : UInt8} (h : isNeutral c = true) (s : Bytes) :
    strictFrom false (c :: s) = strictFrom false s := by
  simp only [isNeutral, Bool.and_eq_true, decide_eq_true_eq] at h
  obtain ⟨⟨⟨⟨⟨h1, h2⟩, h3⟩, h4⟩, h5⟩, h6⟩ := h
  simp [strictFrom, strictByte, h1, h2, h3, h4, h5, h6]

theorem strictFrom_append {p : Bytes} (h : ∀ c ∈ p, isNeutral c = true) (s : Bytes) :
    strictFrom false (p ++ s) = strictFrom false s := by
  induction p with
  | nil => rfl
  | cons c p ih =>
      rw [List.cons_append, strictFrom_neutral (h c (by simp)), ih fun x hx => h x (by simp [hx])]

theorem isNeutral_of_isdigit {c : UInt8} (h : isdigit c = true) : isNeutral c = true := by
  grind [isNeutral]

theorem IsWs.isNeutral {s : Bytes} (h : IsWs s) : ∀ c ∈ s, isNeutral c = true := by
  intro c hc
  rcases h c hc with rfl | rfl | rfl | rfl <;> decide

theorem strictFrom_ws {a : Bytes} (h : IsWs a) (s : Bytes) :
    strictFrom false (a ++ s) = strictFrom false s :=
  strictFrom_append h.isNeutral s

theorem strictFrom_structural {c : UInt8} (hc : isNeutral c = true) {a : Bytes}
    (h : Structural c a) (s : Bytes) : strictFrom false (a ++ s) = strictFrom false s := by
  obtain ⟨b, b', hb, hb', rfl⟩ := h
  rw [List.append_assoc, strictFrom_ws hb, List.cons_append, strictFrom_neutral hc,
    strictFrom_ws hb']

theorem strictFrom_digits {digits : Bytes} (h : IsDigits digits) (s : Bytes) :
    strictFrom false (digits ++ s) = strictFrom false s :=
  strictFrom_append (fun c hc => isNeutral_of_isdigit (h.2 c hc)) s

/-- A minus in front of a digit. -/
theorem strictFrom_minus {s : Bytes} (h : s.head?.any isdigit = true) :
    strictFrom false (0x2D :: s) = strictFrom false s := by
  have hbyte : strictByte 0x2D s = true := by
    simp [strictByte, h]
  rw [strictFrom, hbyte, Bool.true_and]
  rfl

theorem IsDigits.head {digits : Bytes} (h : IsDigits digits) (s : Bytes) :
    (digits ++ s).head?.any isdigit = true := by
  obtain ⟨hne, hall⟩ := h
  cases digits with
  | nil => exact absurd rfl hne
  | cons c digits => simpa using hall c (by simp)

theorem IsInt.isDigits {s : Bytes} (h : IsInt s) : IsDigits s := by
  rcases h with rfl | ⟨h, -⟩
  · exact ⟨by simp, List.all_eq_true.mp rfl⟩
  · exact h

/-- The scan passes a number. -/
theorem strictFrom_number {t : Bytes} (h : IsNumber t) (s : Bytes) :
    strictFrom false (t ++ s) = strictFrom false s := by
  obtain ⟨minus, int, frac, exp, hminus, hint, hfrac, hexp, rfl⟩ := h
  have hexp' : strictFrom false (exp ++ s) = strictFrom false s := by
    rcases hexp with rfl | ⟨e, sign, digits, he, hsign, hdigits, rfl⟩
    · rfl
    · have hletter : isNeutral e = true := by rcases he with rfl | rfl <;> decide
      rw [List.cons_append, strictFrom_neutral hletter, List.append_assoc]
      rcases hsign with rfl | rfl | rfl
      · exact strictFrom_digits hdigits s
      · rw [List.singleton_append, strictFrom_neutral rfl, strictFrom_digits hdigits]
      · rw [List.singleton_append, strictFrom_minus (hdigits.head s), strictFrom_digits hdigits]
  have hfrac' : ∀ r, strictFrom false (frac ++ r) = strictFrom false r := by
    intro r
    rcases hfrac with rfl | ⟨digits, hdigits, rfl⟩
    · rfl
    · rw [List.cons_append, strictFrom_neutral rfl, strictFrom_digits hdigits]
  have hint' : strictFrom false (int ++ (frac ++ exp) ++ s) = strictFrom false s := by
    rw [List.append_assoc, strictFrom_digits hint.isDigits, List.append_assoc, hfrac', hexp']
  rcases hminus with rfl | rfl
  · exact hint'
  · have hhead : (int ++ (frac ++ exp) ++ s).head?.any isdigit = true := by
      rw [List.append_assoc]
      exact hint.isDigits.head _
    rw [List.append_assoc, List.singleton_append, strictFrom_minus hhead, hint']

/-- A byte inside a literal that is neither quote nor backslash. -/
theorem strictFrom_plain {p : Bytes} (h : ∀ c ∈ p, c ≠ quote ∧ c ≠ backslash) (s : Bytes) :
    strictFrom true (p ++ s) = strictFrom true s := by
  induction p with
  | nil => rfl
  | cons c p ih =>
      obtain ⟨hq, hb⟩ := h c (by simp)
      rw [List.cons_append, strictFrom.eq_def]
      simp only [if_neg hq, if_neg hb]
      exact ih fun x hx => h x (by simp [hx])

theorem strictFrom_escape {d : UInt8} (h : isEscape d = true) (s : Bytes) :
    strictFrom true (backslash :: d :: s) = strictFrom true s := by
  rw [strictFrom, if_neg (by decide), if_pos rfl, h, Bool.true_and]

/-- The scan passes the characters of a literal. -/
theorem strictFrom_chars {body : Bytes} (h : IsChars body) (s : Bytes) :
    strictFrom true (body ++ s) = strictFrom true s := by
  induction h with
  | nil => rfl
  | unescaped _ hplain _ ih =>
      rw [List.append_assoc, strictFrom_plain fun b hb => (hplain b hb).2, ih]
  | @escape d t hd _ ih =>
      have hesc : isEscape d = true := by simp [isEscape, hd]
      rw [List.cons_append, List.cons_append, strictFrom_escape hesc, ih]
  | unicode _ hhex _ ih =>
      rw [List.cons_append, List.cons_append, strictFrom_escape rfl, List.append_assoc,
        strictFrom_plain fun c hc => (plain_of_isxdigit (hhex c hc)).imp_right And.left, ih]

theorem strictFrom_string {t : Bytes} (h : IsString t) (s : Bytes) :
    strictFrom false (t ++ s) = strictFrom false s := by
  obtain ⟨body, hbody, rfl⟩ := h
  have hopen : ∀ r, strictFrom false (quote :: r) = strictFrom true r := fun _ => rfl
  rw [List.cons_append, List.append_assoc, hopen, strictFrom_chars hbody, List.singleton_append,
    strictFrom.eq_def]
  simp only [if_true]

/-- The scan passes a text of the grammar, rule by rule. -/
theorem strictFrom_derives {sym : Symbol} {t : Bytes} (h : Derives sym t) (s : Bytes) :
    strictFrom false (t ++ s) = strictFrom false s := by
  induction h generalizing s with
  | false => exact strictFrom_append (List.all_eq_true.mp rfl) s
  | null => exact strictFrom_append (List.all_eq_true.mp rfl) s
  | true => exact strictFrom_append (List.all_eq_true.mp rfl) s
  | number hn => exact strictFrom_number hn s
  | string hs => exact strictFrom_string hs s
  | emptyObject ha hb =>
      rw [List.append_assoc, strictFrom_structural rfl ha,
        strictFrom_structural rfl hb]
  | object ha _ hb ih =>
      rw [List.append_assoc, strictFrom_structural rfl ha, List.append_assoc, ih,
        strictFrom_structural rfl hb]
  | emptyArray ha hb =>
      rw [List.append_assoc, strictFrom_structural rfl ha,
        strictFrom_structural rfl hb]
  | array ha _ hb ih =>
      rw [List.append_assoc, strictFrom_structural rfl ha, List.append_assoc, ih,
        strictFrom_structural rfl hb]
  | member hk ha _ ih =>
      rw [List.append_assoc, strictFrom_string hk, List.append_assoc,
        strictFrom_structural rfl ha, ih]
  | lastMember _ ih => exact ih s
  | moreMembers _ ha _ ih ih' =>
      rw [List.append_assoc, ih, List.append_assoc, strictFrom_structural rfl ha, ih']
  | lastElement _ ih => exact ih s
  | moreElements _ ha _ ih ih' =>
      rw [List.append_assoc, ih, List.append_assoc, strictFrom_structural rfl ha, ih']

/-- A text of the **grammar** passes the scan. -/
theorem strictFrom_of_jsonText {s : Bytes} (h : JsonText s) : strictFrom false s = true := by
  obtain ⟨a, v, b, ha, hv, hb, rfl⟩ := h
  rw [strictFrom_ws ha, strictFrom_derives hv, ← List.append_nil b, strictFrom_ws hb]
  rfl

end Json
