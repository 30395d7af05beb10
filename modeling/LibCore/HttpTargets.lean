import LibCore.HttpClient
import LibCore.PathCanonical

/-!
# What the Client Asks For

The request-target that `impl_execute` of `http_client.c` writes on the request line, and the URL it
makes of a relative `Location`. Both go through `normalize_path`, which takes its text apart at every
slash: the query that travels with the path, and the whole URL of the redirect.

## Main results

* `request_target_iff`: the URLs whose path and query are asked for as they are.
* `relative_redirect_lost`: no request follows a redirect to a relative reference.
-/

open CString HttpResponseParser PathValidator

namespace HttpClient

/-! ### Normalised paths -/

theorem sublist_pushSegment (stack : List Bytes) (token : Bytes) :
    (pushSegment stack token).Sublist (stack ++ [token]) := by
  rw [pushSegment]
  split_ifs
  · exact List.sublist_append_left _ _
  · exact (List.dropLast_sublist _).trans (List.sublist_append_left _ _)
  · exact List.Sublist.refl _

theorem sublist_foldl_pushSegment (stack tokens : List Bytes) :
    (tokens.foldl pushSegment stack).Sublist (stack ++ tokens) := by
  induction tokens generalizing stack with
  | nil => simp
  | cons t tokens ih =>
      have h := (ih (pushSegment stack t)).trans ((sublist_pushSegment stack t).append_right tokens)
      rwa [List.append_assoc] at h

/-- The stack holds plain segments. -/
theorem plain_foldl_pushSegment {stack tokens : List Bytes} (hstack : ∀ s ∈ stack, PlainSegment s)
    (htokens : ∀ t ∈ tokens, t ≠ [] ∧ slash ∉ t) :
    ∀ s ∈ tokens.foldl pushSegment stack, PlainSegment s := by
  induction tokens generalizing stack with
  | nil => exact hstack
  | cons t tokens ih =>
      refine ih (fun s hs => ?_) fun t ht => htokens t (List.mem_cons_of_mem _ ht)
      rw [pushSegment] at hs
      split_ifs at hs with hdot hdots
      · exact hstack s hs
      · exact hstack s (List.mem_of_mem_dropLast hs)
      · rcases List.mem_append.mp hs with hs | hs
        · exact hstack s hs
        · obtain rfl := List.mem_singleton.mp hs
          obtain ⟨hne, hslash⟩ := htokens s List.mem_cons_self
          exact ⟨hne, hdot, hdots, hslash⟩

/-- Plain segments are pushed as they are. -/
theorem foldl_pushSegment_of_plain {segs : List Bytes} (h : ∀ s ∈ segs, PlainSegment s)
    (stack : List Bytes) : segs.foldl pushSegment stack = stack ++ segs := by
  induction segs generalizing stack with
  | nil => simp
  | cons s segs ih =>
      obtain ⟨hs, hsegs⟩ := List.forall_mem_cons.mp h
      have hdot : s ≠ ascii ['.'] := hs.2.1
      have hdots : s ≠ ascii ['.', '.'] := hs.2.2.1
      have hpush : pushSegment stack s = stack ++ [s] := by
        rw [pushSegment, if_neg hdot, if_neg hdots]
      rw [List.foldl_cons, hpush, ih hsegs, List.append_assoc, List.singleton_append]

theorem mem_strtok {path t : Bytes} (h : t ∈ HttpServer.strtok slash path) : t ≠ [] ∧ slash ∉ t := by
  rw [HttpServer.strtok, List.mem_filter, decide_eq_true_eq] at h
  exact ⟨h.2, (mem_splitOn h.1).1⟩

/-- The tokens of a joined path are its segments. -/
theorem strtok_join {segs : List Bytes} (h : ∀ s ∈ segs, s ≠ [] ∧ slash ∉ s) :
    HttpServer.strtok slash (join segs) = segs := by
  by_cases hsegs : segs = []
  · subst hsegs
    rfl
  · rw [HttpServer.strtok, splitOn_join hsegs fun s hs => (h s hs).2,
      List.filter_cons_of_neg (by simp), List.filter_eq_self]
    exact fun s hs => decide_eq_true (h s hs).1

theorem normalizePath_eq_join {path : Bytes} (h : path ≠ []) : normalizePath path =
    join ((HttpServer.strtok slash path).foldl pushSegment []) := by
  rw [normalizePath, if_neg h, join]

/-- A normalised path is in normal form. -/
theorem normal_normalizePath {path : Bytes} (h : path ≠ []) : Normal (normalizePath path) := by
  rw [normalizePath_eq_join h]
  exact normal_join (plain_foldl_pushSegment (by simp) fun t => mem_strtok)

/-- A path in normal form stays. -/
theorem normalizePath_of_normal {path : Bytes} (h : Normal path) : normalizePath path = path := by
  by_cases hpath : path = []
  · rw [normalizePath, if_pos hpath, hpath]
  · obtain ⟨segs, hsegs, rfl⟩ := h.exists_join hpath
    rw [normalizePath_eq_join hpath, strtok_join fun s hs => ⟨(hsegs s hs).1, (hsegs s hs).2.2.2⟩,
      foldl_pushSegment_of_plain hsegs, List.nil_append]

/-- A path does not get longer. -/
theorem length_normalizePath_le (l : Bytes) :
    (normalizePath (slash :: l)).length ≤ (slash :: l).length := by
  rw [normalizePath_eq_join (by simp), List.length_cons]
  refine length_join_le ((sublist_foldl_pushSegment _ _).trans ?_)
  rw [List.nil_append, HttpServer.strtok, List.splitOn_cons_eq_if_modifyHead]
  simp

/-- A path in normal form has no `://`. -/
theorem strstr_schemeSep_of_normal {path : Bytes} (h : Normal path) : strstr schemeSep path = none := by
  rw [Option.eq_none_iff_forall_ne_some]
  intro i hi
  obtain ⟨later, hlater⟩ := ((strstr_eq_some_iff (by decide)).mp hi).1
  have hsep : schemeSep = [HttpServer.colonByte, slash, slash] := rfl
  have hpath : path = (path.take i ++ [HttpServer.colonByte]) ++ slash :: slash :: later := by
    conv_lhs => rw [← List.take_append_drop i path, ← hlater]
    simp [hsep]
  rcases h with rfl | ⟨-, segs, hsplit, hsegs⟩
  · have hlen := congrArg List.length hpath
    simp only [List.length_append, List.length_cons, List.length_nil] at hlen
    omega
  · rw [hpath, List.splitOn_append_cons_self, List.splitOn_cons_eq_if_modifyHead] at hsplit
    obtain ⟨t, ts, hts⟩ := List.exists_cons_of_ne_nil
      (List.splitOn_ne_nil slash (path.take i ++ [HttpServer.colonByte]))
    rw [hts, List.cons_append, List.cons.injEq] at hsplit
    refine (hsegs [] ?_).1 rfl
    rw [← hsplit.2]
    simp

/-! ### Schemes -/

/-- `isalpha`. -/
def isalpha (c : UInt8) : Bool := isalnum c && !isdigit c

/-- A scheme: a letter, and letters, digits, `+`, `-` and `.`. -/
def IsScheme (s : Bytes) : Prop :=
  (∃ c ∈ s.head?, isalpha c = true) ∧
    ∀ c ∈ s, isalnum c = true ∨ c ∈ ascii ['+', '-', '.']

/-- `http` and `https` consist of letters. -/
theorem isalpha_of_strcasecmpEq {s : Bytes} (h : strcasecmpEq s httpScheme = true ∨
    strcasecmpEq s httpsScheme = true) : ∀ c ∈ s, isalpha c = true := by
  have hletter : ∀ c : UInt8, tolower c ∈ httpsScheme → isalpha c = true := by decide +kernel
  intro c hc
  have hmem := List.mem_map_of_mem (f := tolower) hc
  refine hletter c ?_
  rcases h with h | h <;> rw [of_decide_eq_true h] at hmem
  · exact List.mem_of_mem_take (i := 4) hmem
  · exact hmem

/-- `http` and `https` are schemes, in any letters. -/
theorem isScheme_of_strcasecmpEq {s : Bytes} (h : strcasecmpEq s httpScheme = true ∨
    strcasecmpEq s httpsScheme = true) : IsScheme s := by
  have halpha := isalpha_of_strcasecmpEq h
  refine ⟨?_, fun c hc => .inl (Bool.and_eq_true_iff.mp (halpha c hc)).1⟩
  cases s with
  | nil => rcases h with h | h <;> cases of_decide_eq_true h
  | cons c s => exact ⟨c, rfl, halpha c List.mem_cons_self⟩

/-! ### Copies of a path -/

/-- A path that starts at the root is asked for as it is exactly when it is in normal form and fits
the copy of the URL, which leaves `n` bytes for it, and the copy of the path. -/
theorem normalizePath_copy {t : Bytes} (ht : ∀ c ∈ t.head?, c = slashByte) (n : ℕ) :
    (normalizePath ((requestTarget (t.take n)).take 1023)).length ≤ (requestTarget t).length ∧
      (normalizePath ((requestTarget (t.take n)).take 1023) = requestTarget t ↔
        requestTarget t = [slashByte] ∨ t ≠ [] ∧ Normal t ∧ t.length ≤ 1023 ∧ t.length ≤ n) := by
  have hroot : normalizePath [slashByte] = [slashByte] := rfl
  cases t with
  | nil => simp [requestTarget, hroot]
  | cons c l =>
      obtain rfl : c = slashByte := ht c rfl
      rw [requestTarget, requestTarget, if_neg (List.cons_ne_nil slashByte l)]
      cases n with
      | zero =>
          rw [List.take_zero, if_pos rfl, show [slashByte].take 1023 = [slashByte] from rfl, hroot]
          refine ⟨by simp, fun heq => .inl heq.symm, ?_⟩
          rintro (heq | ⟨-, -, -, hlen⟩)
          · exact heq.symm
          · simp at hlen
      | succ k =>
          rw [List.take_succ_cons, if_neg (by simp), List.take_succ_cons, List.take_take]
          have hle : (normalizePath (slashByte :: l.take (min 1022 k))).length ≤
            (slashByte :: l.take (min 1022 k)).length := length_normalizePath_le _
          rw [List.length_cons, List.length_take] at hle
          refine ⟨by rw [List.length_cons]; omega, fun heq => ?_, ?_⟩
          · have hlen := congrArg List.length heq
            rw [List.length_cons] at hlen
            refine .inr ⟨List.cons_ne_nil _ _, heq ▸ normal_normalizePath (by simp), ?_, ?_⟩ <;>
            · rw [List.length_cons]
              omega
          · rintro (hl | ⟨-, hnormal, hcopy, hurl⟩)
            · obtain rfl : l = [] := by simpa using hl
              simpa using hroot
            · rw [List.length_cons] at hcopy hurl
              rw [List.take_of_length_le (by omega)]
              exact normalizePath_of_normal hnormal

/-- A slash behind a text without slashes. -/
theorem length_le_of_slash_prefix {a b p q : Bytes} (hb : slashByte ∉ b) (hp : p.head? = some slashByte)
    (h : a ++ p <+: b ++ q) : p.length ≤ q.length := by
  have hfront : b.length ≤ a.length := by
    by_contra hlt
    have ha : a ++ [slashByte] <+: b ++ q := by
      refine List.IsPrefix.trans ?_ h
      cases p with
      | nil => cases hp
      | cons c p =>
          obtain rfl : c = slashByte := by simpa using hp
          simp
    have hab : a ++ [slashByte] <+: b := List.prefix_of_prefix_length_le ha (List.prefix_append b q)
      (by rw [List.length_append, List.length_singleton]; omega)
    exact hb (hab.mem (by simp))
  have hlen := h.length_le
  rw [List.length_append, List.length_append] at hlen
  omega

/-! ### The request line -/

/-- The text behind the target. -/
def versionText : Bytes :=
  ascii [' ', 'H', 'T', 'T', 'P', '/', '1', '.', '1', '\r', '\n']

/-- The request line of a request with some method, as far as `tmp[8192]` holds it. -/
def Exchange.requestLine (method : Bytes) (x : Exchange) : Bytes :=
  (method ++ 0x20 :: x.path ++ versionText).take 8191

/-- A URL with the scheme `http` or `https`, by its grammar. It has no fragment. -/
structure HttpUrl where
  scheme : Bytes
  authority : Bytes
  path : Bytes
  query : Option Bytes
  scheme_http : strcasecmpEq scheme httpScheme = true ∨ strcasecmpEq scheme httpsScheme = true
  authority_free : ∀ c ∈ authority, c ≠ slashByte ∧ c ≠ queryByte ∧ c ≠ 0x23
  path_rooted : ∀ c ∈ path.head?, c = slashByte
  path_free : ∀ c ∈ path, c ≠ queryByte ∧ c ≠ 0x23
  query_free : ∀ q ∈ query, 0x23 ∉ q

namespace HttpUrl

/-- The query behind its `?`. -/
def queryText (u : HttpUrl) : Bytes := u.query.elim [] fun q => queryByte :: q

/-- The URL as a text. -/
def text (u : HttpUrl) : Bytes := u.scheme ++ schemeSep ++ u.authority ++ (u.path ++ u.queryText)

/-- The path, which is the root when there is none, and the query. -/
def target (u : HttpUrl) : Bytes := requestTarget u.path ++ u.queryText

/-- The path of the URL has no dot segment and no doubled slash. -/
def PlainPath (u : HttpUrl) : Prop :=
  ¬[slashByte, slashByte] <:+: u.path ∧ ∀ s ∈ u.path.splitOn slash, s ≠ [dot] ∧ s ≠ [dot, dot]

instance (u : HttpUrl) : Decidable u.PlainPath := inferInstanceAs (Decidable (_ ∧ _))

/-- The target passes the normalisation, the copy of the path and the copy of the URL. -/
def Fits (u : HttpUrl) : Prop :=
  u.target = [slashByte] ∨
    u.path ≠ [] ∧ Normal u.target ∧ u.target.length ≤ 1023 ∧ u.text.length ≤ 2047

variable {u : HttpUrl} {e : Endpoint}

/-- What is behind the scheme. -/
theorem drop_text (u : HttpUrl) : (u.text.take 2047).drop (u.scheme.length + 3) =
    (u.authority ++ (u.path ++ u.queryText)).take (2044 - u.scheme.length) := by
  have htext : u.text = (u.scheme ++ schemeSep) ++ (u.authority ++ (u.path ++ u.queryText)) := by
    rw [text, List.append_assoc _ u.authority]
  have hlen : u.scheme.length + 3 = (u.scheme ++ schemeSep).length := by
    rw [List.length_append]
    rfl
  rw [List.drop_take, htext, hlen, List.drop_left]
  congr 1
  rw [← hlen]
  omega

/-- The scheme of a URL is the text before its first `://`, and it is short. -/
theorem scheme_of_text (u : HttpUrl) :
    strstr schemeSep (u.text.take 2047) = some u.scheme.length ∧
      (u.text.take 2047).take u.scheme.length = u.scheme ∧ u.scheme.length ≤ 15 := by
  have hshort := (scheme_short u.scheme_http).1
  have hletter : ∀ c : UInt8, isalpha c = true → c ≠ HttpServer.colonByte ∧ c ≠ 0 := by
    decide +kernel
  have hfree := fun c hc => hletter c (isalpha_of_strcasecmpEq u.scheme_http c hc)
  have htext : u.text = u.scheme ++ (schemeSep ++ (u.authority ++ (u.path ++ u.queryText))) := by
    simp only [text, List.append_assoc]
  refine ⟨strstr_take (by decide) ?_ (by rw [show schemeSep.length = 3 from rfl]; omega), ?_, hshort⟩
  · rw [htext]
    exact strstr_append_cons (fun h => (hfree _ h).1 rfl) (fun h => (hfree _ h).2 rfl) _ _
  · rw [List.take_take, Nat.min_eq_left (by omega), htext, List.take_left]

/-- The path of the connection, from the parts behind the scheme. -/
theorem path_of_connectTarget (h : connectTarget (u.text.take 2047) = some e) {a p : Bytes}
    (hcut : (u.authority ++ (u.path ++ u.queryText)).take (2044 - u.scheme.length) = a ++ p)
    (ha : slashByte ∉ a) (hp : ∀ c ∈ p.head?, c = slashByte) : e.path = requestTarget p := by
  obtain ⟨hsep, hscheme, hshort⟩ := u.scheme_of_text
  have hsplit : IsSplit (u.text.take 2047) u.scheme.length a p :=
    ⟨hsep, u.drop_text.trans hcut, ha, hp⟩
  have hunix := (scheme_short u.scheme_http).2
  exact (of_endpointOf hsplit hshort (by rwa [hscheme]) (Option.filter_eq_some_iff.mp h).1).1

/-- A URL with a path, or without a query. -/
theorem pathCopy_of_rooted (h : connectTarget (u.text.take 2047) = some e)
    (hroot : ∀ c ∈ (u.path ++ u.queryText).head?, c = slashByte) :
    (pathCopy e).length ≤ u.target.length ∧ (pathCopy e = u.target ↔ u.Fits) := by
  have hfree : slashByte ∉ u.authority.take (2044 - u.scheme.length) :=
    fun hmem => (u.authority_free _ (List.mem_of_mem_take hmem)).1 rfl
  have hhead : ∀ n, ∀ c ∈ ((u.path ++ u.queryText).take n).head?, c = slashByte := by
    intro n c hc
    cases n with
    | zero => cases hc
    | succ n => exact hroot c (by rwa [List.head?_take, if_neg (by omega)] at hc)
  have hpath : u.path = [] → u.queryText = [] := by
    intro hnil
    rw [hnil, List.nil_append, queryText] at hroot
    cases hq : u.query with
    | none => rw [queryText, hq]; rfl
    | some q =>
        rw [hq] at hroot
        exact absurd (hroot queryByte rfl) (by decide)
  have htarget : u.target = requestTarget (u.path ++ u.queryText) := by
    rw [target, requestTarget, requestTarget]
    by_cases hnil : u.path = []
    · simp [hnil, hpath hnil]
    · simp [hnil]
  have hne : u.path ++ u.queryText ≠ [] ↔ u.path ≠ [] := by
    refine not_congr ⟨fun h => (List.append_eq_nil_iff.mp h).1, fun h => ?_⟩
    rw [h, hpath h, List.nil_append]
  have hlen : u.text.length = u.scheme.length + 3 + u.authority.length +
      (u.path ++ u.queryText).length := by
    rw [text, List.length_append, List.length_append, List.length_append]
    rfl
  rw [pathCopy, path_of_connectTarget h List.take_append hfree (hhead _), Fits, htarget]
  obtain ⟨hle, hiff⟩ := normalizePath_copy hroot (2044 - u.scheme.length - u.authority.length)
  refine ⟨hle, hiff.trans (or_congr_right ?_)⟩
  rw [hne]
  refine and_congr_right fun hpath => ?_
  have htext : requestTarget (u.path ++ u.queryText) = u.path ++ u.queryText :=
    if_neg (hne.mpr hpath)
  rw [htext, hlen]
  have hpos : 0 < (u.path ++ u.queryText).length := List.length_pos_iff.mpr (hne.mpr hpath)
  refine and_congr_right fun _ => and_congr_right fun _ => ?_
  omega

/-- A URL with a query directly behind the authority. -/
theorem length_pathCopy_of_no_path (h : connectTarget (u.text.take 2047) = some e)
    (hpath : u.path = []) {q : Bytes} (hq : u.query = some q) :
    (pathCopy e).length < u.target.length := by
  obtain ⟨hsep, -, -⟩ := u.scheme_of_text
  obtain ⟨p, hsplit⟩ := exists_isSplit hsep
  have hcut := u.drop_text.symm.trans hsplit.rest
  have hle := (normalizePath_copy hsplit.path p.length).1
  rw [List.take_length, ← path_of_connectTarget h hcut hsplit.authority hsplit.path, ← pathCopy,
    path_of_connectTarget h hcut hsplit.authority hsplit.path] at hle
  have htarget : u.target.length = q.length + 2 := by
    simp [target, queryText, hpath, hq, requestTarget]
  rw [requestTarget] at hle
  split_ifs at hle with hp
  · rw [List.length_singleton] at hle
    omega
  · have hfront : slashByte ∉ u.authority ++ [queryByte] := by
      rw [List.mem_append, not_or]
      exact ⟨fun hmem => (u.authority_free _ hmem).1 rfl, by decide⟩
    have hhead : p.head? = some slashByte := by
      obtain ⟨c, p, rfl⟩ := List.exists_cons_of_ne_nil hp
      exact congrArg some (hsplit.path c rfl)
    have hprefix : (u.text.take 2047).drop (u.scheme.length + 3) <+:
        (u.authority ++ [queryByte]) ++ q := by
      rw [u.drop_text, hpath, queryText, hq, List.append_assoc]
      exact List.take_prefix _ _
    rw [hsplit.rest] at hprefix
    have hlen := length_le_of_slash_prefix hfront hhead hprefix
    omega

/-- **What the client asks for**, in a request to the URL. -/
theorem pathCopy_eq_target_iff (h : connectTarget (u.text.take 2047) = some e) :
    (pathCopy e).length ≤ u.target.length ∧ (pathCopy e = u.target ↔ u.Fits) := by
  by_cases hroot : ∀ c ∈ (u.path ++ u.queryText).head?, c = slashByte
  · exact pathCopy_of_rooted h hroot
  · have hpath : u.path = [] := by
      by_contra hne
      rw [List.head?_append_of_ne_nil _ hne] at hroot
      exact hroot u.path_rooted
    obtain ⟨q, hq⟩ : ∃ q, u.query = some q := by
      rw [← Option.ne_none_iff_exists']
      intro hq
      simp [hpath, queryText, hq] at hroot
    have hlt := length_pathCopy_of_no_path h hpath hq
    refine ⟨hlt.le, fun heq => absurd (congrArg List.length heq) hlt.ne, ?_⟩
    rintro (htarget | ⟨hne, -⟩)
    · simp [target, queryText, hpath, hq, requestTarget] at htarget
    · exact absurd hpath hne

end HttpUrl

/-- The line has another target exactly when it has another path; a long method leaves no room. -/
theorem requestLine_eq_iff {method target : Bytes} {x : Exchange} (h : x.path.length ≤ target.length) :
    x.requestLine method = method ++ 0x20 :: target ++ versionText ↔
      x.path = target ∧ method.length + target.length + 12 ≤ 8191 := by
  have hversion : versionText.length = 11 := rfl
  rw [Exchange.requestLine]
  constructor
  · intro heq
    have hlen := congrArg List.length heq
    simp only [List.length_take, List.length_append, List.length_cons, hversion] at hlen
    rw [List.take_of_length_le (by simp [hversion]; omega), List.append_cancel_right_eq,
      List.append_cancel_left_eq, List.cons.injEq] at heq
    exact ⟨heq.2, by omega⟩
  · rintro ⟨rfl, hlen⟩
    exact List.take_of_length_le (by simp [hversion]; omega)

/-- **The request-target.** The request line that `execute` sends for a URL has exactly its path, or the
root, and its query as the target exactly when they fit: there is a path unless there is no query,
between the slashes of path and query, after the first, there is no empty text and no dot segment,
the copies of the URL and of the path hold them, and so does the line. -/
theorem request_target_iff {options : Options} {u : HttpUrl} {replies : ℕ → Reply} {st : ClientState}
    {x : Exchange}
    (hx : (execute options u.text replies st).1.requests[st.requests.length]? = some x)
    (method : Bytes) :
    x.requestLine method = method ++ 0x20 :: u.target ++ versionText ↔
      u.Fits ∧ method.length + u.target.length + 12 ≤ 8191 := by
  obtain ⟨e, hconnect, rfl⟩ := of_first_request hx
  obtain ⟨hle, hiff⟩ := HttpUrl.pathCopy_eq_target_iff hconnect
  rw [requestLine_eq_iff hle]
  exact and_congr_left fun _ => hiff

/-- The method `GET`. -/
def getMethod : Bytes := ascii ['G', 'E', 'T']

/-- `http://a/b/`, and a query. -/
def urlAB (query : Option Bytes) (hquery : ∀ q ∈ query, 0x23 ∉ q) : HttpUrl where
  scheme := httpScheme
  authority := ascii ['a']
  path := ascii ['/', 'b', '/']
  query := query
  scheme_http := .inl (by decide)
  authority_free := by decide +kernel
  path_rooted := fun _ hc => (Option.some.inj hc).symm
  path_free := by decide +kernel
  query_free := hquery

/-- `http://a/b/?c`. -/
def queryUrl : HttpUrl :=
  urlAB (some (ascii ['c'])) fun _ hq => Option.some.inj hq ▸ by decide

/-- `http://a/b/`. -/
def slashUrl : HttpUrl := urlAB none fun _ hq => by cases hq

theorem request_target_sample :
    (ClientState.new.buildRequest ⟨httpScheme, ascii ['a'], 80,
      ascii ['/', 'b', '/', '?', 'c']⟩).requestLine getMethod =
        getMethod ++ 0x20 :: queryUrl.target ++ versionText :=
  (@request_target_iff ⟨5, true⟩ queryUrl (fun _ => .failed) .new _ rfl getMethod).mpr
    ⟨.inr ⟨by decide, .inr ⟨by decide, [ascii ['b'], ascii ['?', 'c']], by decide, by decide⟩,
      by decide, by decide⟩, by decide⟩

/-- The slash at the end of a path is not asked for. -/
theorem trailing_slash_lost : slashUrl.PlainPath ∧
    ∃ x, (execute ⟨5, true⟩ slashUrl.text (fun _ => .failed) .new).1.requests[0]? = some x ∧
      x.requestLine getMethod ≠ getMethod ++ 0x20 :: slashUrl.target ++ versionText :=
  ⟨by decide +kernel, _, rfl, by decide +kernel⟩

/-! ### Relative redirects -/

/-- A reference that is relative, and not to the root. -/
structure IsRelative (loc : Bytes) : Prop where
  no_scheme : ¬∃ scheme rest, IsScheme scheme ∧ loc = scheme ++ HttpServer.colonByte :: rest
  no_slash : loc.head? ≠ some slashByte

/-- The map of a URL has its scheme, cut to 15 bytes. -/
theorem get_schemeKey_parseUrl {url : Bytes} {info : HashMap Bytes} {sep : ℕ}
    (hsep : strstr schemeSep url = some sep) (hparse : parseUrl url = some info) :
    info.get schemeKey = some (url.take (min sep 15)) := by
  have hput : ∀ (m : HashMap Bytes) (k v : Bytes), schemeKey ≠ k → k.length < maxKeyLen →
      (∃ f, m.Represents f ∧ f.lookup schemeKey = some (url.take (min sep 15))) →
      ∃ f, (m.put k v).Represents f ∧ f.lookup schemeKey = some (url.take (min sep 15)) := by
    rintro m k v hne hk ⟨f, hf, hlookup⟩
    exact ⟨_, hf.put hk v, by rwa [Finmap.lookup_insert_of_ne _ hne]⟩
  have hscheme : ∃ f, ((HashMap.new 30).put schemeKey (url.take (min sep 15))).Represents f ∧
      f.lookup schemeKey = some (url.take (min sep 15)) :=
    ⟨_, (HashMap.represents_new 30).put (by decide) _, by simp⟩
  have hpath := fun v => hput _ pathKey v (by decide) (by decide) hscheme
  have hresult : ∃ f, info.Represents f ∧ f.lookup schemeKey = some (url.take (min sep 15)) := by
    rw [parseUrl, hsep] at hparse
    dsimp only [Option.bind_eq_bind, Option.bind_some] at hparse
    split at hparse
    · obtain rfl := Option.some.inj hparse
      exact hput _ portKey _ (by decide) (by decide) (hpath _)
    · have hmap : ∀ start : Option ℕ, ∃ f, (start.elim
          ((HashMap.new 30).put schemeKey (url.take (min sep 15))) fun i =>
            ((HashMap.new 30).put schemeKey (url.take (min sep 15))).put pathKey
              ((url.drop (sep + 3)).drop i)).Represents f ∧
          f.lookup schemeKey = some (url.take (min sep 15)) := by
        intro start
        cases start with
        | none => exact hscheme
        | some i => exact hpath _
      have hhost := fun v => hput _ hostKey v (by decide) (by decide)
        (hmap (memchr slashByte (url.drop (sep + 3))))
      split at hparse
      · obtain rfl := Option.some.inj hparse
        exact hput _ portKey _ (by decide) (by decide) (hhost _)
      · obtain rfl := Option.some.inj hparse
        exact hhost _
  obtain ⟨f, hf, hlookup⟩ := hresult
  rw [hf.get (by decide), hlookup]

/-- A URL that is connected to starts with a scheme and `://`. -/
theorem of_connectTarget {url : Bytes} {e : Endpoint} (h : connectTarget url = some e) :
    ∃ scheme rest, IsScheme scheme ∧ url = scheme ++ schemeSep ++ rest := by
  obtain ⟨he, hscheme⟩ := Option.filter_eq_some_iff.mp h
  rw [Bool.or_eq_true] at hscheme
  obtain ⟨info, hparse, he⟩ := Option.bind_eq_some_iff.mp he
  obtain ⟨scheme, hget, he⟩ := Option.bind_eq_some_iff.mp he
  obtain ⟨host, -, he⟩ := Option.bind_eq_some_iff.mp he
  have hport : e.scheme = scheme := by
    dsimp only at he
    split at he <;>
    · obtain ⟨port, -, he⟩ := Option.bind_eq_some_iff.mp he
      rw [← Option.some.inj he]
  cases hsep : strstr schemeSep url with
  | none => simp [parseUrl, hsep] at hparse
  | some sep =>
      rw [get_schemeKey_parseUrl hsep hparse, Option.some.injEq] at hget
      rw [hport, ← hget] at hscheme
      have hlen : sep + 3 ≤ url.length := strstr_add_length_le (by decide) hsep
      have hshort : sep ≤ 15 := by
        have h5 : (url.take (min sep 15)).length ≤ 5 := by
          rcases hscheme with h | h <;>
          · have hmap := congrArg List.length (of_decide_eq_true h)
            rw [List.length_map, List.length_map] at hmap
            rw [hmap]
            decide
        rw [List.length_take] at h5
        omega
      rw [Nat.min_eq_left hshort] at hscheme
      obtain ⟨later, hlater⟩ := ((strstr_eq_some_iff (by decide)).mp hsep).1
      refine ⟨url.take sep, later, isScheme_of_strcasecmpEq hscheme.symm, ?_⟩
      rw [List.append_assoc, hlater, List.take_append_drop]

/-- The URL of a relative redirect cannot be connected to. -/
theorem connectTarget_redirectUrl {loc : Bytes} (h : IsRelative loc) (e : Endpoint) (path : Bytes) :
    connectTarget (redirectUrl e path loc) = none := by
  rw [redirectUrl, if_neg h.no_slash]
  split_ifs with hhttp
  · -- a text that only begins with `http`
    rw [Option.eq_none_iff_forall_ne_some]
    intro e' he'
    obtain ⟨scheme, rest, hscheme, hloc⟩ := of_connectTarget he'
    refine h.no_scheme ⟨scheme, slash :: slash :: rest ++ loc.drop 2047, hscheme, ?_⟩
    conv_lhs => rw [← List.take_append_drop 2047 loc, hloc]
    rw [List.append_assoc, List.append_assoc]
    rfl
  · have hnormal : Normal (normalizePath ((baseUrl e ++ (strrchr slashByte path).elim path
        (fun i => path.take (i + 1)) ++ slashByte :: loc).take 2047)) :=
      normal_normalizePath (by simp)
    have hparse := strstr_schemeSep_of_normal hnormal
    simp only [connectTarget, endpointOf, parseUrl, hparse, Option.bind_eq_bind, Option.bind_none,
      Option.filter_none]

/-- **Relative redirects** are lost. In every state of the loop with a request left, a response that
redirects to a relative reference yields a URL that nothing connects to: no other request goes out,
and the client has no response. -/
theorem relative_redirect_lost {options : Options} {left : ℕ} {url : Bytes} {res : Option ℕ}
    {replies : ℕ → Reply} {st : ClientState} {e : Endpoint} {r : HttpClientResponse} {loc : Bytes}
    (hconnect : connectTarget url = some e) (hreply : replies 0 = .answer r)
    (hloc : followed options r = some loc) (hrelative : IsRelative loc) :
    (∀ next, connectTarget (redirectUrl e (pathCopy e) loc) ≠ some next) ∧
      (executeLoop options (left + 2) url res replies st).1.requests =
        st.requests ++ [st.buildRequest e] ∧
      (executeLoop options (left + 2) url res replies st).2 = none := by
  have hnone := connectTarget_redirectUrl hrelative e (pathCopy e)
  have hloop : executeLoop options (left + 2) url res replies st =
      (((st.request e).receive e.host r).release st.refs.length, none) := by
    rw [executeLoop, hconnect]
    simp only [hreply, hloc]
    rw [executeLoop, hnone]
  rw [hnone, hloop]
  exact ⟨by simp, rfl, rfl⟩

/-- `http://a/b/c`. -/
def urlABC : Bytes := urlA ++ ascii ['b', '/', 'c']

theorem isRelative_x : IsRelative (ascii ['x']) := by
  refine ⟨?_, by decide⟩
  rintro ⟨scheme, rest, -, h⟩
  have hmem : HttpServer.colonByte ∈ ascii ['x'] := h ▸ by simp
  exact absurd hmem (by decide)

/-- The URL of the redirect from `http://a/b/c` to `x` is `/http:/a:80/b/x`. -/
example : redirectUrl ⟨httpScheme, ascii ['a'], 80, ascii ['/', 'b', '/', 'c']⟩
    (ascii ['/', 'b', '/', 'c']) (ascii ['x']) =
      ascii ['/', 'h', 't', 't', 'p', ':', '/', 'a', ':', '8', '0', '/', 'b', '/', 'x'] := by
  decide +kernel

theorem relative_redirect_lost_sample :
    (executeLoop ⟨5, true⟩ 2 urlABC none (fun _ => .answer (redirectTo (ascii ['x']) []))
      .new).2 = none :=
  (@relative_redirect_lost _ 0 _ _ _ _ _ _ _ rfl rfl rfl isRelative_x).2.2

/-- The only request of a redirect from `http://a/b/c` to `x` is the first one. -/
theorem relative_redirect_not_followed :
    IsRelative (ascii ['x']) ∧
      (execute ⟨5, true⟩ urlABC (fun _ => .answer (redirectTo (ascii ['x']) [])) .new).1.requests.map
        (fun x => (x.host, x.path)) = [(ascii ['a'], ascii ['/', 'b', '/', 'c'])] :=
  ⟨isRelative_x, by decide +kernel⟩

end HttpClient
