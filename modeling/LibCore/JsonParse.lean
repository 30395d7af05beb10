import Mathlib.Data.List.DropRight
import LibCore.JsonString

/-!
# What the JSON Parser Does

Inversion lemmas for `parse_value` and the two loops below it: a successful call went
through one of the listed branches. Everything that is proved about accepted texts starts
from these three lemmas.

The fuel of the embedding is accounted for here as well. Every successful call consumes at
least one byte, so the fuel `parse_JSON` starts with never runs out.

## Main results

* `parseValue_ok`, `parseMembers_ok`, `parseElements_ok`: the branches of a successful call.
* `parse_consumes`: a value consumes at least one byte, a loop at least its closing bracket.
* `parseValue_ne_outOfFuel`: the fuel for a text is enough.
-/

open CString

namespace Json

variable {D : Type} {dbl : Double D}

/-! ### Blanks and numbers -/

theorem skipWs_append (ptr : Bytes) : ∃ ws, ptr = ws ++ skipWs ptr ∧ ∀ c ∈ ws, isspace c = true := by
  refine ⟨ptr.takeWhile isspace, (List.takeWhile_append_dropWhile).symm, ?_⟩
  intro c hc
  exact List.mem_takeWhile_imp hc

theorem skipWs_skipWs (s : Bytes) : skipWs (skipWs s) = skipWs s :=
  List.dropWhile_idempotent _ _

theorem skipWs_length_le (ptr : Bytes) : (skipWs ptr).length ≤ ptr.length := by
  obtain ⟨ws, hws, -⟩ := skipWs_append ptr
  have := congrArg List.length hws
  rw [List.length_append] at this
  omega

/-- The value of a number token is in the range of a `double`. -/
def InRange (dbl : Double D) (token : Bytes) : Prop :=
  ((dbl.strtod token).2 && !dbl.isZero (dbl.strtod token).1) = false ∧
    (dbl.isinf (dbl.strtod token).1 || dbl.isnan (dbl.strtod token).1) = false

/-- `parse_number` succeeds when all its checks do. -/
theorem parseNumber_ok_iff {ptr rest : Bytes} {v : Obj D} :
    parseNumber dbl ptr = .ok (v, rest) ↔
      (leadingZero ptr = false ∧ 0 < strtodLen ptr ∧
        pointHasDigit (ptr.take (strtodLen ptr)) = true ∧ InRange dbl (ptr.take (strtodLen ptr)) ∧
        danglingExponent (ptr.take (strtodLen ptr)) = false ∧
        isValidBoundary (ptr.drop (strtodLen ptr)) = true) ∧
      rest = ptr.drop (strtodLen ptr) ∧
        v = .jNumber (dbl.strtod (ptr.take (strtodLen ptr))).1 := by
  simp only [parseNumber, InRange]
  cases leadingZero ptr with
  | true => simp
  | false =>
      by_cases hlen : strtodLen ptr = 0
      · simp [hlen]
      · cases pointHasDigit (ptr.take (strtodLen ptr)) with
        | false => simp [hlen]
        | true =>
            cases ((dbl.strtod (ptr.take (strtodLen ptr))).2 &&
                !dbl.isZero (dbl.strtod (ptr.take (strtodLen ptr))).1) with
            | true => simp [hlen]
            | false =>
                cases (dbl.isinf (dbl.strtod (ptr.take (strtodLen ptr))).1 ||
                    dbl.isnan (dbl.strtod (ptr.take (strtodLen ptr))).1) with
                | true => simp [hlen]
                | false =>
                    cases danglingExponent (ptr.take (strtodLen ptr)) with
                    | true => simp [hlen]
                    | false =>
                        cases isValidBoundary (ptr.drop (strtodLen ptr)) with
                        | false => simp [hlen]
                        | true => simp [hlen, Nat.pos_of_ne_zero, and_comm, eq_comm]

/-- A number is a non-empty token with a value, in front of the rest of the text. -/
theorem parseNumber_ok {ptr rest : Bytes} {v : Obj D}
    (h : parseNumber dbl ptr = .ok (v, rest)) :
    0 < strtodLen ptr ∧ rest = ptr.drop (strtodLen ptr) ∧
      v = .jNumber (dbl.strtod (ptr.take (strtodLen ptr))).1 := by
  obtain ⟨⟨-, hpos, -⟩, hrest⟩ := parseNumber_ok_iff.mp h
  exact ⟨hpos, hrest⟩

/-- A word is one of three. -/
theorem parseWord_ok {ptr rest : Bytes} {v : Obj D} (h : parseWord ptr = .ok (v, rest)) :
    (v = .jBool true ∧ ptr = boolText true ++ rest) ∨
      (v = .jBool false ∧ ptr = boolText false ++ rest) ∨ (v = .jNull ∧ ptr = nullText ++ rest) := by
  -- a word that compares equal stands in front of what follows it
  have hword : ∀ n (word : Bytes), word.length = n →
      (strncmpEq n ptr word && isValidBoundary (ptr.drop n)) = true →
      ptr = word ++ ptr.drop n := by
    intro n word hlen hcond
    have htake : ptr.take n = word := by
      have := strncmpEq_iff.mp (Bool.and_eq_true_iff.mp hcond).1
      rwa [List.take_of_length_le (le_of_eq hlen)] at this
    rw [← htake, List.take_append_drop]
  simp only [parseWord] at h
  split_ifs at h with h1 h2 h3
  · simp only [Except.ok.injEq, Prod.mk.injEq] at h
    obtain ⟨rfl, rfl⟩ := h
    exact Or.inl ⟨rfl, hword 4 _ rfl h1⟩
  · simp only [Except.ok.injEq, Prod.mk.injEq] at h
    obtain ⟨rfl, rfl⟩ := h
    exact Or.inr (Or.inl ⟨rfl, hword 5 _ rfl h2⟩)
  · simp only [Except.ok.injEq, Prod.mk.injEq] at h
    obtain ⟨rfl, rfl⟩ := h
    exact Or.inr (Or.inr ⟨rfl, hword 4 _ rfl h3⟩)
  · exact absurd h reportError_ne_ok

/-! ### The branches of a successful call -/

/-- `parse_value` returned a string, a number, an object, an array or a word. -/
theorem parseValue_ok {fuel depth : ℕ} {ptr rest : Bytes} {v : Obj D}
    (h : parseValue dbl (fuel + 1) depth ptr = .ok (v, rest)) :
    depth ≤ maxJsonDepth ∧ ∃ c s, skipWs ptr = c :: s ∧
      ((c = quote ∧ ∃ str, parseStringRaw s = .ok (str, rest) ∧ v = .jString str) ∨
        ((c = 0x2D || isdigit c) = true ∧ parseNumber dbl (c :: s) = .ok (v, rest)) ∨
        (c = 0x7B ∧ parseMembers dbl fuel (depth + 1) (HashMap.new 16) s = .ok (v, rest)) ∨
        (c = 0x5B ∧ parseElements dbl fuel (depth + 1) [] s = .ok (v, rest)) ∨
        (c ≠ quote ∧ parseWord (c :: s) = .ok (v, rest))) := by
  simp only [parseValue] at h
  split_ifs at h with hd
  · exact absurd h reportError_ne_ok
  · refine ⟨not_lt.mp hd, ?_⟩
    cases hw : skipWs ptr with
    | nil => simp [hw] at h
    | cons c s =>
        simp only [hw] at h
        refine ⟨c, s, rfl, ?_⟩
        split_ifs at h with hq hn ho ha
        · cases hs : parseStringRaw s with
          | error e => simp [hs] at h
          | ok r =>
              simp only [hs, Except.ok.injEq, Prod.mk.injEq] at h
              exact Or.inl ⟨hq, r.1, by rw [← h.2], h.1.symm⟩
        · exact Or.inr (Or.inl ⟨hn, h⟩)
        · exact Or.inr (Or.inr (Or.inl ⟨ho, h⟩))
        · exact Or.inr (Or.inr (Or.inr (Or.inl ⟨ha, h⟩)))
        · exact Or.inr (Or.inr (Or.inr (Or.inr ⟨hq, h⟩)))

/-- Where a loop continues behind a member or an element: behind a comma and blanks, or at
the closing bracket. -/
def Continues (closing : UInt8) (s next : Bytes) : Prop :=
  (∃ s', skipWs s = comma :: s' ∧ next = skipWs s') ∨
    ∃ s', skipWs s = closing :: s' ∧ next = closing :: s'

/-- Behind a comma there is another item. -/
def NoTrailing (closing : UInt8) (s next : Bytes) : Prop :=
  ∀ s', skipWs s = comma :: s' → next.head? ≠ some closing

theorem noTrailing_of_close {closing c : UInt8} {s s' : Bytes} (h : skipWs s = c :: s')
    (hc : c ≠ comma) (next : Bytes) : NoTrailing closing s next := by
  intro t ht
  rw [h, List.cons.injEq] at ht
  exact absurd ht.1 hc

/-- The loop of `parse_object` met the closing brace, or read one member and went on. -/
theorem parseMembers_ok {fuel depth : ℕ} {map : HashMap (Obj D)} {ptr rest : Bytes} {v : Obj D}
    (h : parseMembers dbl (fuel + 1) depth map ptr = .ok (v, rest)) :
    (skipWs ptr = 0x7D :: rest ∧ v = .hashMap map) ∨
      ∃ s key s₁ s₂ val s₃ next, skipWs ptr = quote :: s ∧ parseStringRaw s = .ok (key, s₁) ∧
        skipWs s₁ = 0x3A :: s₂ ∧ parseValue dbl fuel depth s₂ = .ok (val, s₃) ∧
        (Continues 0x7D s₃ next ∧ NoTrailing 0x7D s₃ next) ∧
        parseMembers dbl fuel depth (map.put (cstr key) val) next = .ok (v, rest) := by
  simp only [parseMembers] at h
  split_ifs at h with hnil
  · exact absurd h reportError_ne_ok
  · cases hw : skipWs ptr with
    | nil => simp [hw] at h
    | cons c s =>
        simp only [hw] at h
        split_ifs at h with hclose hq
        · simp only [Except.ok.injEq, Prod.mk.injEq] at h
          exact Or.inl ⟨by rw [hclose, h.2], h.1.symm⟩
        · exact absurd h reportError_ne_ok
        · obtain rfl : c = quote := not_not.mp hq
          refine Or.inr ⟨s, ?_⟩
          cases hs : parseStringRaw s with
          | error e => simp [hs] at h
          | ok r =>
              obtain ⟨key, s₁⟩ := r
              simp only [hs] at h
              cases hw₁ : skipWs s₁ with
              | nil => simp [hw₁] at h
              | cons c s₂ =>
                  simp only [hw₁] at h
                  split_ifs at h with hcolon
                  · exact absurd h reportError_ne_ok
                  · obtain rfl : c = 0x3A := not_not.mp hcolon
                    cases hv : parseValue dbl fuel depth s₂ with
                    | error e => simp [hv] at h
                    | ok r =>
                        obtain ⟨val, s₃⟩ := r
                        simp only [hv] at h
                        cases hw₃ : skipWs s₃ with
                        | nil => simp [hw₃] at h
                        | cons c s₄ =>
                            simp only [hw₃] at h
                            split_ifs at h with hcomma htrail hend
                            · exact absurd h reportError_ne_ok
                            · exact ⟨key, s₁, s₂, val, s₃, _, rfl, rfl, hw₁, hv,
                                ⟨Or.inl ⟨s₄, by rw [hw₃, hcomma], rfl⟩, fun _ _ => htrail⟩, h⟩
                            · exact absurd h reportError_ne_ok
                            · obtain rfl : c = 0x7D := not_not.mp hend
                              exact ⟨key, s₁, s₂, val, s₃, _, rfl, rfl, hw₁, hv,
                                ⟨Or.inr ⟨s₄, hw₃, rfl⟩, noTrailing_of_close hw₃ (by decide) _⟩, h⟩

/-- The loop of `parse_array` met the closing bracket, or read one element and went on. -/
theorem parseElements_ok {fuel depth : ℕ} {list : List (Obj D)} {ptr rest : Bytes} {v : Obj D}
    (h : parseElements dbl (fuel + 1) depth list ptr = .ok (v, rest)) :
    (skipWs ptr = 0x5D :: rest ∧ v = .arrayList list) ∨
      ∃ val s next, (skipWs ptr).head? ≠ some 0x5D ∧
        parseValue dbl fuel depth (skipWs ptr) = .ok (val, s) ∧
        (Continues 0x5D s next ∧ NoTrailing 0x5D s next) ∧
        parseElements dbl fuel depth (list ++ [val]) next = .ok (v, rest) := by
  simp only [parseElements] at h
  split_ifs at h with hnil hclose
  · exact absurd h reportError_ne_ok
  · simp only [Except.ok.injEq, Prod.mk.injEq] at h
    obtain ⟨s, hs⟩ : ∃ s, skipWs ptr = 0x5D :: s := by
      cases hw : skipWs ptr with
      | nil => simp [hw] at hclose
      | cons c s => exact ⟨s, by simpa [hw] using hclose⟩
    refine Or.inl ⟨?_, h.1.symm⟩
    rw [← h.2, hs]
    rfl
  · cases hv : parseValue dbl fuel depth (skipWs ptr) with
    | error e => simp [hv] at h
    | ok r =>
        obtain ⟨val, s⟩ := r
        simp only [hv] at h
        refine Or.inr ⟨val, s, ?_⟩
        cases hw : skipWs s with
        | nil => simp [hw] at h
        | cons c s' =>
            simp only [hw] at h
            split_ifs at h with hcomma htrail hend
            · exact absurd h reportError_ne_ok
            · exact ⟨_, hclose, rfl, ⟨Or.inl ⟨s', by rw [hw, hcomma], rfl⟩, fun _ _ => htrail⟩, h⟩
            · exact absurd h reportError_ne_ok
            · obtain rfl : c = 0x5D := not_not.mp hend
              exact ⟨_, hclose, rfl,
                ⟨Or.inr ⟨s', hw, rfl⟩, noTrailing_of_close hw (by decide) _⟩, h⟩

/-! ### Consumption -/

theorem Continues.length_le {closing : UInt8} {s next : Bytes} (h : Continues closing s next) :
    next.length ≤ s.length := by
  have hs := skipWs_length_le s
  rcases h with ⟨s', hw, rfl⟩ | ⟨s', hw, rfl⟩
  · have := skipWs_length_le s'
    rw [hw, List.length_cons] at hs
    omega
  · rwa [hw] at hs

theorem parseStringRaw_length_lt {s str rest : Bytes} (h : parseStringRaw s = .ok (str, rest)) :
    rest.length < s.length := by
  obtain ⟨body, hscan, -⟩ := parseStringRaw_ok_iff.mp h
  rw [scanString_ok hscan]
  simp
  omega

/-- A value consumes at least one byte, and so does what is left of a loop. -/
theorem parse_consumes (fuel : ℕ) :
    (∀ {depth ptr} {v : Obj D} {rest}, parseValue dbl fuel depth ptr = .ok (v, rest) →
        rest.length < ptr.length) ∧
      (∀ {depth map ptr} {v : Obj D} {rest},
        parseMembers dbl fuel depth map ptr = .ok (v, rest) → rest.length < ptr.length) ∧
      ∀ {depth list ptr} {v : Obj D} {rest},
        parseElements dbl fuel depth list ptr = .ok (v, rest) → rest.length < ptr.length := by
  induction fuel with
  | zero =>
      refine ⟨?_, ?_, ?_⟩
      · intro depth ptr v rest h
        simp [parseValue] at h
      · intro depth map ptr v rest h
        simp [parseMembers] at h
      · intro depth list ptr v rest h
        simp [parseElements] at h
  | succ fuel ih =>
      obtain ⟨ihv, ihm, ihe⟩ := ih
      refine ⟨?_, ?_, ?_⟩
      · intro depth ptr v rest h
        obtain ⟨-, c, s, hw, hcases⟩ := parseValue_ok h
        have hlen := skipWs_length_le ptr
        rw [hw, List.length_cons] at hlen
        rcases hcases with ⟨-, str, hs, -⟩ | ⟨-, hn⟩ | ⟨-, hm⟩ | ⟨-, he⟩ | ⟨-, hword⟩
        · have := parseStringRaw_length_lt hs
          omega
        · obtain ⟨hpos, rfl, -⟩ := parseNumber_ok hn
          rw [List.length_drop, List.length_cons]
          omega
        · have := ihm hm
          omega
        · have := ihe he
          omega
        · rcases parseWord_ok hword with ⟨-, hr⟩ | ⟨-, hr⟩ | ⟨-, hr⟩
          all_goals
            have := congrArg List.length hr
            simp [boolText, nullText, ascii] at this
            omega
      · intro depth map ptr v rest h
        have hlen := skipWs_length_le ptr
        rcases parseMembers_ok h with ⟨hw, -⟩ | ⟨s, key, s₁, s₂, val, s₃, next, hw, hs, hw₁, hv, ⟨hn, -⟩,
          hm⟩
        · rw [hw, List.length_cons] at hlen
          omega
        · rw [hw, List.length_cons] at hlen
          have h₁ := parseStringRaw_length_lt hs
          have h₂ := skipWs_length_le s₁
          rw [hw₁, List.length_cons] at h₂
          have h₃ := ihv hv
          have h₄ := hn.length_le
          have h₅ := ihm hm
          omega
      · intro depth list ptr v rest h
        have hlen := skipWs_length_le ptr
        rcases parseElements_ok h with ⟨hw, -⟩ | ⟨val, s, next, -, hv, ⟨hn, -⟩, he⟩
        · rw [hw, List.length_cons] at hlen
          omega
        · have h₁ := ihv hv
          have h₂ := hn.length_le
          have h₃ := ihe he
          omega

/-! ### Fuel -/

/-- A literal never runs out of fuel. -/
theorem parseStringRaw_ne_outOfFuel (s : Bytes) : parseStringRaw s ≠ .error .outOfFuel := by
  have hscan : ∀ s, scanString s ≠ .error .outOfFuel := by
    intro s
    fun_induction scanString s with
    | case1 | case3 | case5 => simp [reportError]
    | case2 => simp
    | case4 d s hq ih => cases hs : scanString s <;> simp_all [Except.map]
    | case6 c s hq hb hctl ih => cases hs : scanString s <;> simp_all [Except.map]
  simp only [parseStringRaw]
  cases hs : scanString s with
  | error e =>
      intro he
      rw [show e = .outOfFuel from Except.error.inj he] at hs
      exact hscan s hs
  | ok r =>
      obtain ⟨body, rest⟩ := r
      simp only
      split_ifs with hfits
      · cases hd : decodeLoop body.length body with
        | ok str => simp
        | error e =>
            cases e with
            | silent => simp
            | reported msg left => simp
            | outOfFuel => exact absurd hd (decodeLoop_ne_outOfFuel (le_refl _))
      · simp [reportError]

theorem parseNumber_ne_outOfFuel (ptr : Bytes) : parseNumber dbl ptr ≠ .error .outOfFuel := by
  simp only [parseNumber]
  split_ifs <;> simp [reportError]

theorem parseWord_ne_outOfFuel (ptr : Bytes) :
    (parseWord ptr : Parsed (Obj D)) ≠ .error .outOfFuel := by
  simp only [parseWord]
  split_ifs <;> simp [reportError]

section Fuel

variable {fuel : ℕ}

theorem parseValue_succ_ne_outOfFuel
    (ihm : ∀ depth map ptr, 2 * ptr.length + 2 ≤ fuel →
      parseMembers dbl fuel depth map ptr ≠ .error .outOfFuel)
    (ihe : ∀ depth list ptr, 2 * ptr.length + 2 ≤ fuel →
      parseElements dbl fuel depth list ptr ≠ .error .outOfFuel)
    (depth : ℕ) (ptr : Bytes) (hf : 2 * ptr.length + 1 ≤ fuel + 1) :
    parseValue dbl (fuel + 1) depth ptr ≠ .error .outOfFuel := by
  have hlen := skipWs_length_le ptr
  simp only [parseValue]
  split_ifs with hd
  · simp [reportError]
  · cases hw : skipWs ptr with
    | nil => simp
    | cons c s =>
        rw [hw, List.length_cons] at hlen
        simp only
        split_ifs
        · cases hs : parseStringRaw s with
          | error e =>
              have := parseStringRaw_ne_outOfFuel s
              rw [hs] at this
              simpa using this
          | ok r => simp
        · exact parseNumber_ne_outOfFuel _
        · exact ihm _ _ _ (by omega)
        · exact ihe _ _ _ (by omega)
        · exact parseWord_ne_outOfFuel _

variable (ihv : ∀ depth ptr, 2 * ptr.length + 1 ≤ fuel →
  parseValue dbl fuel depth ptr ≠ .error .outOfFuel)
include ihv

theorem parseMembers_succ_ne_outOfFuel
    (ihm : ∀ depth map ptr, 2 * ptr.length + 2 ≤ fuel →
      parseMembers dbl fuel depth map ptr ≠ .error .outOfFuel)
    (depth : ℕ) (map : HashMap (Obj D)) (ptr : Bytes) (hf : 2 * ptr.length + 2 ≤ fuel + 1) :
    parseMembers dbl (fuel + 1) depth map ptr ≠ .error .outOfFuel := by
  have hlen := skipWs_length_le ptr
  simp only [parseMembers]
  split_ifs with hnil
  · simp [reportError]
  · cases hw : skipWs ptr with
    | nil => simp [reportError]
    | cons c s =>
        rw [hw, List.length_cons] at hlen
        simp only
        split_ifs
        · simp
        · simp [reportError]
        · cases hs : parseStringRaw s with
          | error e =>
              have := parseStringRaw_ne_outOfFuel s
              rw [hs] at this
              simpa using this
          | ok r =>
              obtain ⟨key, s₁⟩ := r
              have h₁ := parseStringRaw_length_lt hs
              have h₂ := skipWs_length_le s₁
              simp only
              cases hw₁ : skipWs s₁ with
              | nil => simp [reportError]
              | cons c s₂ =>
                  rw [hw₁, List.length_cons] at h₂
                  simp only
                  split_ifs
                  · simp [reportError]
                  · have hval := ihv depth s₂ (by omega)
                    cases hv : parseValue dbl fuel depth s₂ with
                    | error e =>
                        rw [hv] at hval
                        simpa using hval
                    | ok r =>
                        obtain ⟨val, s₃⟩ := r
                        have h₃ := (parse_consumes fuel).1 hv
                        have h₄ := skipWs_length_le s₃
                        simp only
                        cases hw₃ : skipWs s₃ with
                        | nil => simp [reportError]
                        | cons c s₄ =>
                            rw [hw₃, List.length_cons] at h₄
                            have h₅ := skipWs_length_le s₄
                            simp only
                            split_ifs
                            · simp [reportError]
                            · exact ihm _ _ _ (by omega)
                            · simp [reportError]
                            · exact ihm _ _ _ (by rw [List.length_cons]; omega)

theorem parseElements_succ_ne_outOfFuel
    (ihe : ∀ depth list ptr, 2 * ptr.length + 2 ≤ fuel →
      parseElements dbl fuel depth list ptr ≠ .error .outOfFuel)
    (depth : ℕ) (list : List (Obj D)) (ptr : Bytes) (hf : 2 * ptr.length + 2 ≤ fuel + 1) :
    parseElements dbl (fuel + 1) depth list ptr ≠ .error .outOfFuel := by
  have hlen := skipWs_length_le ptr
  simp only [parseElements]
  split_ifs with hnil hclose
  · simp [reportError]
  · simp
  · have hval := ihv depth (skipWs ptr) (by omega)
    cases hv : parseValue dbl fuel depth (skipWs ptr) with
    | error e =>
        rw [hv] at hval
        simpa using hval
    | ok r =>
        obtain ⟨val, s⟩ := r
        have h₁ := (parse_consumes fuel).1 hv
        have h₂ := skipWs_length_le s
        simp only
        cases hw : skipWs s with
        | nil => simp [reportError]
        | cons c s' =>
            rw [hw, List.length_cons] at h₂
            have h₃ := skipWs_length_le s'
            simp only
            split_ifs
            · simp [reportError]
            · exact ihe _ _ _ (by omega)
            · simp [reportError]
            · exact ihe _ _ _ (by rw [List.length_cons]; omega)

end Fuel

/-- Two units of fuel for each byte are enough. -/
theorem parse_ne_outOfFuel (fuel : ℕ) :
    (∀ depth ptr, 2 * ptr.length + 1 ≤ fuel →
        parseValue dbl fuel depth ptr ≠ .error .outOfFuel) ∧
      (∀ depth map ptr, 2 * ptr.length + 2 ≤ fuel →
        parseMembers dbl fuel depth map ptr ≠ .error .outOfFuel) ∧
      ∀ depth list ptr, 2 * ptr.length + 2 ≤ fuel →
        parseElements dbl fuel depth list ptr ≠ .error .outOfFuel := by
  induction fuel with
  | zero => exact ⟨fun _ _ h => by omega, fun _ _ _ h => by omega, fun _ _ _ h => by omega⟩
  | succ fuel ih =>
      obtain ⟨ihv, ihm, ihe⟩ := ih
      exact ⟨parseValue_succ_ne_outOfFuel ihm ihe, parseMembers_succ_ne_outOfFuel ihv ihm,
        parseElements_succ_ne_outOfFuel ihv ihe⟩

/-- The fuel `parse_JSON` starts with is enough. -/
theorem parseValue_ne_outOfFuel (text : Bytes) :
    parseValue dbl (parseFuel text) 0 text ≠ .error .outOfFuel :=
  (parse_ne_outOfFuel _).1 _ _ (by simp only [parseFuel]; omega)

end Json
