import LibCore.JsonParse

/-!
# The Strings of a Parsed Tree

Which texts `parse_JSON` turns into trees of well-formed strings. The string literals of a
text are found by a scan that knows nothing of the grammar (`literals`): outside a literal
only the opening quote matters, inside it a backslash protects the next byte. A successful
parse decodes exactly these literals, in order, and every string value and key of its tree
comes from one of them, a key cut at its first NUL.

So the strings are well formed as soon as in every literal the runs of escaped bytes from
`0x80` on are.

## Main results

* `parse_accounts`: the literals a call passes are decoded, and its value is made of them.
* `parseJSON_wellFormed`: on an accepted text, well-formed runs are what makes every decoded
  literal well formed, and then every string and key of the tree is.
* `parseJSON_stray_byte`: a text whose tree holds a string that is not UTF-8.
-/

open CString Utf8

namespace Json

variable {D : Type} {dbl : Double D}

/-! ### Literals of a text -/

/-- The bodies of the string literals of a text; inside a literal, `some` of the body read so
far. -/
def literals : Option Bytes → Bytes → List Bytes
  | _, [] => []
  | none, c :: s => if c = quote then literals (some []) s else literals none s
  | some body, c :: s =>
      if c = quote then body :: literals none s
      else if c = backslash then
        match s with
        | [] => []
        | d :: s => literals (some (body ++ [c, d])) s
      else literals (some (body ++ [c])) s

theorem literals_cons {c : UInt8} (hc : c ≠ quote) (s : Bytes) :
    literals none (c :: s) = literals none s := by
  simp [literals, hc]

/-- Text without a quote holds no literal. -/
theorem literals_append {p : Bytes} (hp : ∀ c ∈ p, c ≠ quote) (s : Bytes) :
    literals none (p ++ s) = literals none s := by
  induction p with
  | nil => rfl
  | cons c p ih =>
      rw [List.cons_append, literals_cons (hp c (by simp)), ih fun x hx => hp x (by simp [hx])]

/-- The scan for the closing quote sees the same literal. -/
theorem literals_scanString {s body rest : Bytes} (h : scanString s = .ok (body, rest))
    (acc : Bytes) : literals (some acc) s = (acc ++ body) :: literals none rest := by
  fun_induction scanString s generalizing acc body rest with
  | case1 => exact absurd h reportError_ne_ok
  | case2 s =>
      simp only [Except.ok.injEq, Prod.mk.injEq] at h
      obtain ⟨rfl, rfl⟩ := h
      rw [literals.eq_def]
      simp
  | case3 => exact absurd h reportError_ne_ok
  | case4 d s hq ih =>
      cases hs : scanString s with
      | error e => simp [hs, Except.map] at h
      | ok r =>
          obtain ⟨body', rest'⟩ := r
          simp only [hs, Except.map, Except.ok.injEq, Prod.mk.injEq] at h
          obtain ⟨rfl, rfl⟩ := h
          rw [literals, if_neg hq, if_pos rfl, ih hs]
          simp
  | case5 => exact absurd h reportError_ne_ok
  | case6 c s hq hb hctl ih =>
      cases hs : scanString s with
      | error e => simp [hs, Except.map] at h
      | ok r =>
          obtain ⟨body', rest'⟩ := r
          simp only [hs, Except.map, Except.ok.injEq, Prod.mk.injEq] at h
          obtain ⟨rfl, rfl⟩ := h
          rw [literals.eq_def]
          simp [hq, hb, ih hs]

theorem ne_quote_of_isspace : ∀ c : UInt8, isspace c = true → c ≠ quote := by
  grind

@[simp] theorem literals_skipWs (s : Bytes) : literals none (skipWs s) = literals none s := by
  obtain ⟨ws, hws, hsp⟩ := skipWs_append s
  conv_rhs => rw [hws]
  rw [literals_append fun c hc => ne_quote_of_isspace c (hsp c hc)]

theorem Continues.literals {closing : UInt8} {s next : Bytes}
    (h : Continues closing s next) : Json.literals none next = Json.literals none s := by
  rw [← literals_skipWs s]
  rcases h with ⟨s', hw, rfl⟩ | ⟨s', hw, rfl⟩
  · rw [hw, literals_skipWs, literals_cons (by decide)]
  · rw [hw]

/-! ### Number tokens hold no quote -/

/-- The first `n` bytes hold no quote. -/
def QuoteFree (s : Bytes) (n : ℕ) : Prop := ∀ c ∈ s.take n, c ≠ quote

theorem QuoteFree.zero (s : Bytes) : QuoteFree s 0 := by
  simp [QuoteFree]

theorem QuoteFree.add {s : Bytes} {m n : ℕ} (hm : QuoteFree s m) (hn : QuoteFree (s.drop m) n) :
    QuoteFree s (m + n) := by
  intro c hc
  rw [List.take_add] at hc
  rcases List.mem_append.mp hc with hc | hc
  · exact hm c hc
  · exact hn c hc

theorem QuoteFree.spanLen {p : UInt8 → Bool} (hp : p quote = false) (s : Bytes) :
    QuoteFree s (spanLen p s) := by
  intro c hc
  have htake : s.take (Json.spanLen p s) = s.takeWhile p :=
    List.prefix_iff_eq_take.mp (List.takeWhile_prefix p) |>.symm
  rw [htake] at hc
  rintro rfl
  rw [List.mem_takeWhile_imp hc] at hp
  exact absurd hp (by simp)

theorem QuoteFree.word {word s : Bytes} (h : startsWithWord word s = true)
    (hw : quote ∉ word) : QuoteFree s word.length := by
  rintro c hc rfl
  have hmap : (s.take word.length).map tolower = word := by
    simpa [startsWithWord] using h
  apply hw
  rw [← hmap]
  exact List.mem_map.mpr ⟨quote, hc, by decide⟩

theorem QuoteFree.head {s : Bytes} {a : UInt8} (h : s.head? = some a) (ha : a ≠ quote) :
    QuoteFree s 1 := by
  cases s with
  | nil => simp at h
  | cons b s =>
      obtain rfl : b = a := by simpa using h
      simpa [QuoteFree] using ha

theorem QuoteFree.ite {c : Prop} [Decidable c] {s : Bytes} {m n : ℕ} (hm : c → QuoteFree s m)
    (hn : ¬c → QuoteFree s n) : QuoteFree s (if c then m else n) := by
  split_ifs with h
  · exact hm h
  · exact hn h

/-- An optional sign. -/
theorem QuoteFree.sign (s : Bytes) :
    QuoteFree s (if s.head?.any fun c => c = 0x2B || c = 0x2D then 1 else 0) := by
  refine QuoteFree.ite (fun h => ?_) fun _ => QuoteFree.zero s
  cases s with
  | nil => simp at h
  | cons b s =>
      refine QuoteFree.head (a := b) rfl ?_
      rintro rfl
      rw [List.head?_cons, Option.any_some] at h
      exact absurd h (by decide)

theorem QuoteFree.exponentLen {letter : UInt8} (hl : letter ≠ quote) (s : Bytes) :
    QuoteFree s (exponentLen letter s) := by
  refine QuoteFree.ite (fun hw => ?_) fun _ => QuoteFree.zero s
  have hletter : QuoteFree s 1 := QuoteFree.word hw (by simpa using hl.symm)
  refine QuoteFree.ite (fun _ => QuoteFree.zero s) fun _ => ?_
  exact (hletter.add (QuoteFree.sign _)).add (QuoteFree.spanLen (p := isdigit) rfl _)

theorem QuoteFree.mantissaLen {digit : UInt8 → Bool} {letter : UInt8} (hd : digit quote = false)
    (hl : letter ≠ quote) (s : Bytes) : QuoteFree s (mantissaLen digit letter s) := by
  have hwhole := QuoteFree.spanLen hd s
  simp only [Json.mantissaLen]
  by_cases hp : (s.drop (Json.spanLen digit s)).head? = some 0x2E
  · have hpoint := hwhole.add (QuoteFree.head hp (by decide))
    simp only [hp, if_true]
    refine QuoteFree.ite (fun _ => QuoteFree.zero s) fun _ => ?_
    exact (hpoint.add (QuoteFree.spanLen hd _)).add (QuoteFree.exponentLen hl _)
  · simp only [hp, if_false, Nat.zero_ne_one, Nat.add_zero]
    refine QuoteFree.ite (fun _ => QuoteFree.zero s) fun _ => ?_
    exact hwhole.add (QuoteFree.exponentLen hl _)

theorem QuoteFree.nanTailLen (s : Bytes) : QuoteFree s (nanTailLen s) := by
  simp only [Json.nanTailLen]
  split_ifs with h1 h2
  · have hopen : QuoteFree s 1 := QuoteFree.head h1 (by decide)
    have hchars := hopen.add (QuoteFree.spanLen (p := fun c => isalnum c || c = 0x5F) rfl _)
    have hclose := hchars.add (QuoteFree.head h2 (by decide))
    rwa [show ∀ n : ℕ, 1 + n + 1 = n + 2 from fun n => by omega] at hclose
  · exact QuoteFree.zero s
  · exact QuoteFree.zero s

theorem QuoteFree.subjectLen (s : Bytes) : QuoteFree s (subjectLen s) := by
  simp only [Json.subjectLen]
  split_ifs with h1 h2 h3 h4 h5
  · exact QuoteFree.word h1 (by decide)
  · exact QuoteFree.word h2 (by decide)
  · exact (QuoteFree.word h3 (by decide)).add (QuoteFree.nanTailLen _)
  · intro c hc
    exact QuoteFree.word h4 (by decide) c (List.take_subset_take_left s (by decide) hc)
  · exact (QuoteFree.word h4 (by decide)).add (QuoteFree.mantissaLen rfl (by decide) _)
  · exact QuoteFree.mantissaLen rfl (by decide) _

/-- A number token holds no quote. -/
theorem QuoteFree.strtodLen (s : Bytes) : QuoteFree s (strtodLen s) := by
  refine QuoteFree.ite (fun _ => QuoteFree.zero s) fun _ => ?_
  have hblanks : QuoteFree s (Json.spanLen isspace s) := QuoteFree.spanLen rfl s
  exact (hblanks.add (QuoteFree.sign _)).add (QuoteFree.subjectLen _)

/-! ### The strings of a tree -/

/-- Every string value and every object key satisfies `P`. -/
inductive AllStrings (P : Bytes → Prop) : Obj D → Prop
  | jString {str : Bytes} : P str → AllStrings P (.jString str)
  | jNumber {d : D} : AllStrings P (.jNumber d)
  | jBool {b : Bool} : AllStrings P (.jBool b)
  | jNull : AllStrings P .jNull
  | arrayList {items : List (Obj D)} :
      (∀ o ∈ items, AllStrings P o) → AllStrings P (.arrayList items)
  | hashMap {map : HashMap (Obj D)} :
      (∀ e ∈ map.entries, P e.1) → (∀ e ∈ map.entries, AllStrings P e.2) →
      AllStrings P (.hashMap map)
  | jsonNode {isObj isArr : Bool} {core : Obj D} :
      AllStrings P core → AllStrings P (.jsonNode isObj isArr core)

/-- A `put` keeps the entries, adds one, or gives an old one the new value. -/
theorem mem_entries_put {V : Type} {m : HashMap V} (hm : 0 < m.capacity) {key : Bytes} {v : V}
    {e : Bytes × V} (he : e ∈ (m.put key v).entries) :
    e ∈ m.entries ∨ (e.2 = v ∧ (e.1 = key ∨ ∃ w, (e.1, w) ∈ m.entries)) := by
  by_cases hfresh : ∀ e ∈ m.bucket key, keyMatches key e.1 = false
  · have hmem := (HashMap.put_entries_perm_of_fresh hm hfresh v).1.mem_iff.mp he
    rcases List.mem_cons.mp hmem with rfl | hmem
    · exact Or.inr ⟨rfl, Or.inl rfl⟩
    · exact Or.inl hmem
  · push Not at hfresh
    obtain ⟨e₀, he₀, hmatch⟩ := hfresh
    obtain ⟨k, w, rest, -, -, hold, hnew, -⟩ :=
      HashMap.put_entries_perm_of_match hm ⟨e₀, he₀, by simpa using hmatch⟩ v
    rcases List.mem_cons.mp (hnew.mem_iff.mp he) with rfl | hmem
    · exact Or.inr ⟨rfl, Or.inr ⟨w, hold.mem_iff.mpr (by simp)⟩⟩
    · exact Or.inl (hold.mem_iff.mpr (by simp [hmem]))

/-- A member whose key and value are good may be put. -/
theorem AllStrings.put {P : Bytes → Prop} {map : HashMap (Obj D)} (hm : 0 < map.capacity)
    (h : AllStrings P (.hashMap map)) {key : Bytes} (hkey : P key) {val : Obj D}
    (hval : AllStrings P val) : AllStrings P (.hashMap (map.put key val)) := by
  cases h with
  | hashMap hkeys hvals =>
      refine .hashMap ?_ ?_
      · intro e he
        rcases mem_entries_put hm he with hold | ⟨-, hk | ⟨w, hw⟩⟩
        · exact hkeys e hold
        · rwa [hk]
        · exact hkeys (e.1, w) hw
      · intro e he
        rcases mem_entries_put hm he with hold | ⟨hv, -⟩
        · exact hvals e hold
        · rwa [hv]

/-! ### Accounting for the literals -/

/-- A literal with this body is read as the string. -/
def Decodes (body str : Bytes) : Prop := ∃ rest, parseStringRaw (body ++ quote :: rest) = .ok (str, rest)

/-- Both loops, on a body that is decoded. -/
theorem Decodes.loops {body str : Bytes} (h : Decodes body str) :
    ∃ rest, scanString (body ++ quote :: rest) = .ok (body, rest) ∧ FitsInt body.length ∧
      decodeLoop body.length body = .ok str := by
  obtain ⟨rest, hraw⟩ := h
  obtain ⟨body', hscan, hfits, hdec⟩ := parseStringRaw_ok_iff.mp hraw
  obtain rfl : body = body' := List.append_cancel_right (scanString_ok hscan)
  exact ⟨rest, hscan, hfits, hdec⟩

/-- Between `ptr` and `rest` lie literals that all decode, and what is good of the decoded
texts and of their C strings is good of every string of `v`, given that it was good of what
was there before. -/
def Accounts (ptr rest : Bytes) (before : (Bytes → Prop) → Prop) (v : Obj D) : Prop :=
  ∃ bodies, literals none ptr = bodies ++ literals none rest ∧
    (∀ body ∈ bodies, ∃ str, Decodes body str) ∧
    ∀ P : Bytes → Prop, (∀ body ∈ bodies, ∀ str, Decodes body str → P str ∧ P (cstr str)) →
      before P → AllStrings P v

/-- A literal accounts for itself. -/
theorem literals_parseStringRaw {s str rest : Bytes} (h : parseStringRaw s = .ok (str, rest)) :
    ∃ body, literals none (quote :: s) = body :: literals none rest ∧ Decodes body str := by
  obtain ⟨body, hscan, -⟩ := parseStringRaw_ok_iff.mp h
  refine ⟨body, ?_, rest, by rwa [← scanString_ok hscan]⟩
  rw [literals.eq_def]
  simpa using literals_scanString hscan []

/-- One call after another: what the first one made may be used by the second. -/
theorem Accounts.trans {s t u : Bytes} {before mid : (Bytes → Prop) → Prop} {v : Obj D}
    (bodies : List Bytes) (hlit : literals none s = bodies ++ literals none t)
    (hdec : ∀ body ∈ bodies, ∃ str, Decodes body str)
    (hmid : ∀ P : Bytes → Prop,
      (∀ body ∈ bodies, ∀ str, Decodes body str → P str ∧ P (cstr str)) → before P → mid P)
    (h : Accounts t u mid v) : Accounts s u before v := by
  obtain ⟨bodies', hlit', hdec', hP'⟩ := h
  refine ⟨bodies ++ bodies', by rw [hlit, hlit', List.append_assoc], ?_, ?_⟩
  · intro body hb
    rcases List.mem_append.mp hb with hb | hb
    · exact hdec body hb
    · exact hdec' body hb
  · intro P hP hb
    refine hP' P (fun body hm => hP body (by simp [hm])) ?_
    exact hmid P (fun body hm => hP body (by simp [hm])) hb

/-- **Accounting**: by induction on the fuel, a successful call passes literals that all
decode, and its value holds no string from anywhere else. -/
theorem parse_accounts (fuel : ℕ) :
    (∀ depth ptr (v : Obj D) rest, parseValue dbl fuel depth ptr = .ok (v, rest) →
        Accounts ptr rest (fun _ => True) v) ∧
      (∀ depth map ptr (v : Obj D) rest, 0 < map.capacity →
        parseMembers dbl fuel depth map ptr = .ok (v, rest) →
        Accounts ptr rest (fun P => AllStrings P (.hashMap map)) v) ∧
      ∀ depth list ptr (v : Obj D) rest, parseElements dbl fuel depth list ptr = .ok (v, rest) →
        Accounts ptr rest (fun P => ∀ o ∈ list, AllStrings P o) v := by
  induction fuel with
  | zero =>
      refine ⟨?_, ?_, ?_⟩
      · intro depth ptr v rest h
        simp [parseValue] at h
      · intro depth map ptr v rest _ h
        simp [parseMembers] at h
      · intro depth list ptr v rest h
        simp [parseElements] at h
  | succ fuel ih =>
      obtain ⟨ihv, ihm, ihe⟩ := ih
      refine ⟨?_, ?_, ?_⟩
      · intro depth ptr v rest h
        obtain ⟨-, c, s, hw, hcases⟩ := parseValue_ok h
        have hlit : literals none ptr = literals none (c :: s) := by rw [← hw, literals_skipWs]
        rcases hcases with ⟨rfl, str, hs, rfl⟩ | ⟨-, hn⟩ | ⟨rfl, hm⟩ | ⟨rfl, he⟩ | ⟨-, hword⟩
        · obtain ⟨body, hbody, hdec⟩ := literals_parseStringRaw hs
          refine ⟨[body], hlit.trans hbody, by simpa using ⟨str, hdec⟩, ?_⟩
          intro P hP _
          exact .jString (hP body (by simp) str hdec).1
        · obtain ⟨-, rfl, rfl⟩ := parseNumber_ok hn
          have hfree := literals_append (QuoteFree.strtodLen (c :: s))
            ((c :: s).drop (strtodLen (c :: s)))
          rw [List.take_append_drop] at hfree
          refine ⟨[], ?_, by simp, fun _ _ _ => .jNumber⟩
          rw [hlit, hfree, List.nil_append]
        · rw [literals_cons (by decide)] at hlit
          refine Accounts.trans [] hlit (by simp) ?_
            (ihm _ _ _ _ _ (HashMap.capacity_new_pos 16) hm)
          intro P _ _
          exact .hashMap (by simp) (by simp)
        · rw [literals_cons (by decide)] at hlit
          refine Accounts.trans [] hlit (by simp) ?_ (ihe _ _ _ _ _ he)
          simp
        · rcases parseWord_ok hword with ⟨rfl, hr⟩ | ⟨rfl, hr⟩ | ⟨rfl, hr⟩
          · rw [hr, literals_append (List.forall_mem_ne'.mpr (by decide))] at hlit
            exact ⟨[], hlit, by simp, fun _ _ _ => .jBool⟩
          · rw [hr, literals_append (List.forall_mem_ne'.mpr (by decide))] at hlit
            exact ⟨[], hlit, by simp, fun _ _ _ => .jBool⟩
          · rw [hr, literals_append (List.forall_mem_ne'.mpr (by decide))] at hlit
            exact ⟨[], hlit, by simp, fun _ _ _ => .jNull⟩
      · intro depth map ptr v rest hcap h
        have hlit : literals none ptr = literals none (skipWs ptr) := (literals_skipWs ptr).symm
        rcases parseMembers_ok h with ⟨hw, rfl⟩ |
          ⟨s, key, s₁, s₂, val, s₃, next, hw, hs, hw₁, hv, ⟨hn, -⟩, hm⟩
        · rw [hw, literals_cons (by decide)] at hlit
          exact ⟨[], hlit, by simp, fun _ _ hb => hb⟩
        · -- key, value and the rest of the loop, one behind the other
          obtain ⟨body, hbody, hdec⟩ := literals_parseStringRaw hs
          have hkey : literals none ptr = [body] ++ literals none s₂ := by
            rw [hlit, hw, hbody, ← literals_skipWs s₁, hw₁, literals_cons (by decide)]
            rfl
          obtain ⟨bodies, hlit₂, hdec₂, hval⟩ := ihv _ _ _ _ hv
          have hrest := ihm _ _ _ _ _ (by rwa [HashMap.capacity_put]) hm
          refine Accounts.trans ([body] ++ bodies)
            (by rw [hkey, hlit₂, ← hn.literals, List.append_assoc]) ?_ ?_ hrest
          · intro b hb
            rcases List.mem_append.mp hb with hb | hb
            · exact ⟨key, by rwa [List.mem_singleton.mp hb]⟩
            · exact hdec₂ b hb
          · intro P hP hbefore
            refine AllStrings.put hcap hbefore (hP body (by simp) key hdec).2 ?_
            exact hval P (fun b hb => hP b (by simp [hb])) trivial
      · intro depth list ptr v rest h
        have hlit : literals none ptr = literals none (skipWs ptr) := (literals_skipWs ptr).symm
        rcases parseElements_ok h with ⟨hw, rfl⟩ | ⟨val, s, next, -, hv, ⟨hn, -⟩, he⟩
        · rw [hw, literals_cons (by decide)] at hlit
          exact ⟨[], hlit, by simp, fun _ _ hb => .arrayList hb⟩
        · obtain ⟨bodies, hlit₂, hdec₂, hval⟩ := ihv _ _ _ _ hv
          refine Accounts.trans bodies (by rw [hlit, hlit₂, ← hn.literals]) hdec₂ ?_
            (ihe _ _ _ _ _ he)
          intro P hP hbefore o ho
          rcases List.mem_append.mp ho with ho | ho
          · exact hbefore o ho
          · rw [List.mem_singleton.mp ho]
            exact hval P hP trivial

/-! ### Well-formed strings -/

/-- The C string of a well-formed text is well formed: a NUL is a character of its own. -/
theorem wellFormed_cstr {str : Bytes} (h : WellFormed str) : WellFormed (cstr str) := by
  have hsplit : str = cstr str ++ str.dropWhile (· ≠ 0) :=
    (List.takeWhile_append_dropWhile).symm
  cases hd : str.dropWhile (· ≠ 0) with
  | nil => rwa [hsplit, hd, List.append_nil] at h
  | cons b t =>
      have hb : b = 0 := by
        have := List.head?_dropWhile_not (· ≠ (0 : UInt8)) str
        rw [hd] at this
        simpa using this
      rw [hsplit, hd, hb] at h
      exact WellFormed.of_append_cons (by decide) h

/-- In every string literal of the text, the runs of escaped bytes from `0x80` on are well
formed. -/
def EscapesOk (text : Bytes) : Prop := ∀ body ∈ literals none text, RunsOk [] body

instance (text : Bytes) : Decidable (EscapesOk text) :=
  inferInstanceAs (Decidable (∀ body ∈ literals none text, RunsOk [] body))

/-- On an accepted text the runs of escaped bytes decide, literal by literal, whether what the
parser decodes is well formed; where they are well formed, every string and key of the tree
is. -/
theorem parseJSON_wellFormed {json : Bytes} {root : Obj D}
    (h : parseJSON dbl json = .ok root) :
    (EscapesOk (cstr json) → AllStrings WellFormed root) ∧
      (¬EscapesOk (cstr json) →
        ∃ body ∈ literals none (cstr json), ∃ str, Decodes body str ∧ ¬WellFormed str) := by
  simp only [parseJSON] at h
  split_ifs at h with hne
  split at h
  · exact absurd h (by simp)
  · exact absurd h (by simp)
  next parsed rest hparse =>
    split_ifs at h with hrest
    obtain rfl : root = .jsonNode (isHashmap parsed) (isArraylist parsed) parsed := by
      simpa using h.symm
    obtain ⟨bodies, hlit, hdec, hP⟩ := (parse_accounts _).1 _ _ _ _ hparse
    have hall : literals none (cstr json) = bodies := by
      rw [hlit, ← literals_skipWs rest, not_not.mp hrest]
      simp [literals]
    have hruns : ∀ body str, Decodes body str → (WellFormed str ↔ RunsOk [] body) := by
      intro body str hd
      obtain ⟨-, -, -, hloop⟩ := hd.loops
      exact decodeLoop_wellFormed_iff hloop []
    rw [EscapesOk, hall]
    constructor
    · intro hok
      refine .jsonNode (hP WellFormed ?_ trivial)
      intro body hb str hd
      have hwf := (hruns body str hd).mpr (hok body hb)
      exact ⟨hwf, wellFormed_cstr hwf⟩
    · intro hbad
      push Not at hbad
      obtain ⟨body, hb, hnot⟩ := hbad
      obtain ⟨str, hd⟩ := hdec body hb
      exact ⟨body, hb, str, hd, fun hwf => hnot ((hruns body str hd).mp hwf)⟩

/-- A text with a Unicode escape. -/
theorem parseJSON_wellFormed_sample :
    AllStrings WellFormed (.jsonNode false false (.jString [0xC3, 0xA9]) : Obj ℕ) := by
  have hparse : parseJSON natDouble [quote, backslash, 0x75, 0x30, 0x30, 0x65, 0x39, quote] =
      .ok (.jsonNode false false (.jString [0xC3, 0xA9])) := rfl
  exact (parseJSON_wellFormed hparse).1 (by decide)

/-- A byte `80` behind a backslash: the text is accepted, and its tree is the one-byte string
`80`, which is no UTF-8. -/
theorem parseJSON_stray_byte :
    parseJSON natDouble [quote, backslash, 0x80, quote] =
        .ok (.jsonNode false false (.jString [0x80])) ∧
      ¬AllStrings WellFormed (.jsonNode false false (.jString [0x80]) : Obj ℕ) := by
  refine ⟨rfl, ?_⟩
  intro h
  cases h with
  | jsonNode h =>
      cases h with
      | jString h => exact absurd h (by decide)

end Json
