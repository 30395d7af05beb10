import LibCore.BoardHandler
import LibCore.LikePattern

/-!
# BoardHandler: The Search

The part of `BoardHandler_list` that turns the keyword of a request into a condition on the posts. What the
database client does to a string before it stands between quotes is not in the repository: `escapeString` is
any function that may fail.

## Main results

* `escapeLike_eq`: the buffer of `BOARD_LIKE_MAX_BYTES` holds every keyword that is let through.
* `search_literal`: the pattern of the condition matches the texts that contain the keyword.
-/

open CString

namespace BoardHandler

/-! ### The functions -/

/-- `BOARD_SEARCH_MAX_BYTES`. -/
def searchMaxBytes : ℕ := 400

/-- `BOARD_LIKE_MAX_BYTES`. -/
def likeMaxBytes : ℕ := searchMaxBytes * 2 + 1

/-- `BOARD_WHERE_MAX_BYTES`. -/
def whereMaxBytes : ℕ := 4096

/-- `BoardHandler_bounded_strlen`. -/
def boundedStrlen (s : Bytes) (maxLen : ℕ) : ℕ := min s.length maxLen

/-- The loop of `BoardHandler_escape_like`, with what stands in `dst` so far; `none` for 0. -/
def escapeLikeLoop (dstSize : ℕ) : Bytes → Bytes → Option Bytes
  | dst, [] => some dst
  | dst, c :: src =>
      if c = 0x3D ∨ c = 0x25 ∨ c = 0x5F then
        if dst.length + 2 ≥ dstSize then none else escapeLikeLoop dstSize (dst ++ [0x3D] ++ [c]) src
      else if dst.length + 1 ≥ dstSize then none
      else escapeLikeLoop dstSize (dst ++ [c]) src

/-- `BoardHandler_escape_like`; `none` for 0. -/
def escapeLike (src : Bytes) (dstSize : ℕ) : Option Bytes :=
  if dstSize = 0 then none else escapeLikeLoop dstSize [] src

/-- The pattern between the quotes, `%…%`. -/
def likePattern (keyword : Bytes) : Bytes := 0x25 :: (keyword ++ [0x25])

/-- A column that is searched. -/
def likeTerm (column : Bytes) (keyword : Bytes) : Bytes :=
  column ++ text " LIKE '" ++ likePattern keyword ++ text "' ESCAPE '='"

/-- The nickname of a writer, or `'익명'`. -/
def writerColumn : Bytes :=
  text "COALESCE(m.nickname, '" ++ [0xEC, 0x9D, 0xB5, 0xEB, 0xAA, 0x85] ++ text "')"

/-- The condition that `BoardHandler_list` adds for a keyword. -/
def searchTerm (searchType keyword : Bytes) : Bytes :=
  if searchType = text "content" then text " AND " ++ likeTerm (text "p.content") keyword
  else if searchType = text "title_content" then
    text " AND (" ++ likeTerm (text "p.title") keyword ++ text " OR " ++
      likeTerm (text "p.content") keyword ++
      text ")"
  else if searchType = text "writer" then text " AND " ++ likeTerm writerColumn keyword
  else text " AND " ++ likeTerm (text "p.title") keyword

/-- The `search_type` of a request, `title` unless it is one of four. -/
def searchTypeOf (searchType : Option Bytes) : Bytes :=
  match searchType with
  | none => text "title"
  | some type =>
      if type = text "title" ∨ type = text "content" ∨ type = text "title_content" ∨
        type = text "writer" then type else text "title"

/-- `BoardHandler_list`, from the parameters of the search to the `WHERE` clause. -/
def whereClause (escapeString : Bytes → Option Bytes) (searchType keyword : Option Bytes) :
    Except Reply Bytes :=
  let searchType := searchTypeOf searchType
  let keyword := keyword.getD []
  if boundedStrlen keyword (searchMaxBytes + 1) > searchMaxBytes then
    .error (.sendText 400 "Search keyword too long.")
  else
    match escapeLike keyword likeMaxBytes with
    | none => .error (.sendText 400 "Invalid search keyword.")
    | some likeKeyword =>
        match escapeString likeKeyword with
        | none => .error (.sendText 500 "Search escaping failed.")
        | some safe =>
            match snprintf whereMaxBytes (text "p.is_deleted = 0") with
            | none => .error (.sendText 500 "Error constructing query.")
            | some clause =>
                if safe = [] then .ok clause
                else
                  match snprintf (whereMaxBytes - clause.length) (searchTerm searchType safe) with
                  | none => .error (.sendText 500 "Error constructing query.")
                  | some term => .ok (clause ++ term)

/-! ### The pattern -/

/-- The symbols of `LIKE` with `ESCAPE '='`. -/
def sqlLike : Wildcards UInt8 where
  many := 0x25
  one := 0x5F
  escape := 0x3D
  many_ne_one := by decide
  many_ne_escape := by decide
  one_ne_escape := by decide

/-- The loop writes the escaped keyword where it and the NUL behind it fit. -/
theorem escapeLikeLoop_eq {dstSize : ℕ} {dst src : Bytes} (hfits : dst.length + 2 * src.length < dstSize) :
    escapeLikeLoop dstSize dst src = some (dst ++ sqlLike.escapeText src) := by
  induction src generalizing dst with
  | nil => exact congrArg some (List.append_nil dst).symm
  | cons c src ih =>
      rw [List.length_cons] at hfits
      rw [escapeLikeLoop, Wildcards.escapeText_cons, ← List.append_assoc]
      by_cases hc : c = 0x3D ∨ c = 0x25 ∨ c = 0x5F
      · have hlen : (dst ++ [0x3D] ++ [c]).length = dst.length + 2 := by simp
        rw [if_pos hc, if_neg (by omega), ih (by omega), if_pos (show sqlLike.IsMeta c from hc),
          List.append_assoc dst]
        rfl
      · have hlen : (dst ++ [c]).length = dst.length + 1 := by simp
        rw [if_neg hc, if_neg (by omega), ih (by omega), if_neg (show ¬sqlLike.IsMeta c from hc)]

/-- Every keyword that is let through fits; the worst case fills the buffer. -/
theorem escapeLike_eq {keyword : Bytes} (hlen : keyword.length ≤ searchMaxBytes) :
    escapeLike keyword likeMaxBytes = some (sqlLike.escapeText keyword) := by
  have hsize : likeMaxBytes = 2 * searchMaxBytes + 1 := rfl
  rw [escapeLike, if_neg (by omega)]
  refine escapeLikeLoop_eq ?_
  rw [List.length_nil]
  omega

/-- A keyword that is too long is refused, every other one goes into the condition as it is escaped. -/
theorem whereClause_eq (escapeString : Bytes → Option Bytes) (searchType : Option Bytes) (keyword : Bytes) :
    (searchMaxBytes < keyword.length →
      whereClause escapeString searchType (some keyword) =
        .error (.sendText 400 "Search keyword too long.")) ∧
    (keyword.length ≤ searchMaxBytes → ∀ clause,
      whereClause escapeString searchType (some keyword) = .ok clause →
        ∃ safe, escapeString (sqlLike.escapeText keyword) = some safe ∧
          (clause = text "p.is_deleted = 0" ∧ safe = [] ∨
            clause = text "p.is_deleted = 0" ++ searchTerm (searchTypeOf searchType) safe)) := by
  constructor
  · intro hlen
    rw [whereClause]
    dsimp only [Option.getD_some]
    rw [if_pos]
    rw [boundedStrlen]
    omega
  · intro hlen clause hclause
    rw [whereClause] at hclause
    dsimp only [Option.getD_some] at hclause
    rw [if_neg (by rw [boundedStrlen]; omega), escapeLike_eq hlen] at hclause
    dsimp only at hclause
    cases hsafe : escapeString (sqlLike.escapeText keyword) with
    | none =>
        rw [hsafe] at hclause
        cases hclause
    | some safe =>
        have hbase : snprintf whereMaxBytes (text "p.is_deleted = 0") = some (text "p.is_deleted = 0") :=
          rfl
        rw [hsafe, hbase] at hclause
        dsimp only at hclause
        refine ⟨safe, rfl, ?_⟩
        split_ifs at hclause with hnil
        · exact .inl ⟨(Except.ok.inj hclause).symm, hnil⟩
        · refine .inr ?_
          rw [snprintf] at hclause
          split_ifs at hclause
          exact (Except.ok.inj hclause).symm

/-- **The keyword is literal**: it is escaped within the buffer, the pattern matches the texts that contain it,
and a clause that is built for it has the escaped keyword, as the client has quoted it, in its pattern. -/
theorem search_literal {keyword : Bytes} (hlen : keyword.length ≤ searchMaxBytes) :
    ∃ escaped, escapeLike keyword likeMaxBytes = some escaped ∧ escaped.length + 1 ≤ likeMaxBytes ∧
      (∀ t, sqlLike.Matches (likePattern escaped) t ↔ keyword <:+: t) ∧
      ∀ escapeString searchType clause, whereClause escapeString searchType (some keyword) = .ok clause →
        ∃ safe, escapeString escaped = some safe ∧
          (clause = text "p.is_deleted = 0" ∧ safe = [] ∨
            clause = text "p.is_deleted = 0" ++ searchTerm (searchTypeOf searchType) safe) := by
  refine ⟨_, escapeLike_eq hlen, ?_, fun t => Wildcards.matches_contains_iff,
    fun escapeString searchType => (whereClause_eq escapeString searchType keyword).2 hlen⟩
  have hdouble : (sqlLike.escapeText keyword).length ≤ 2 * keyword.length := Wildcards.length_escapeText_le
  have hsize : likeMaxBytes = 2 * searchMaxBytes + 1 := rfl
  omega

theorem search_literal_percent :
    ∃ escaped, escapeLike (ascii ['5', '0', '%', '=']) likeMaxBytes = some escaped ∧
      escaped.length + 1 ≤ likeMaxBytes ∧
      ∀ t, sqlLike.Matches (likePattern escaped) t ↔ ascii ['5', '0', '%', '='] <:+: t := by
  obtain ⟨escaped, hescaped, hroom, hmatches, -⟩ := @search_literal (ascii ['5', '0', '%', '=']) (by decide)
  exact ⟨escaped, hescaped, hroom, hmatches⟩

end BoardHandler
