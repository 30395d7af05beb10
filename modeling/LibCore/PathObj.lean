import LibCore.HttpTargets
import LibCore.LexicalPath

/-!
# Path: Normalising

`Path_normalize` of `path.c` and `normalize_path` of `http_request_builder.c`. The first keeps the segments on
a stack of 256 pointers and writes them into a buffer of `PATH_MAX` bytes with bounded concatenation, the second
on an `ArrayList` from which it writes them back over the path. A path is at least as long as what either
writes, so the bounds of the buffer do not matter below `PATH_MAX`, and memory is assumed not to run out.

A `..` on an empty stack is dropped. That is right at the root; a relative path loses a level there.

## Main results

* `normalize_eq_normalizePath`: on absolute paths both give the one lexical resolution of the path.
* `normalize_relative_iff`: on relative paths the meaning is kept exactly if no `..` comes too early.
-/

open CString PathValidator LexicalPath

namespace PathObj

/-! ### The functions -/

/-- `PATH_MAX`. -/
def pathMax : ℕ := 4096

/-- `Path_isAbsolute`. -/
def isAbsolute (path : Bytes) : Bool := path.head? == some slash

/-- `new_Path`; `none` for `NULL`. -/
def newPath (pathStr : Bytes) : Option Bytes :=
  let len := min pathStr.length pathMax
  if len = pathMax then none else some (pathStr.take pathMax)

/-- `strncat`. -/
def strncat (dest src : Bytes) (n : ℕ) : Bytes := dest ++ src.take n

/-- The loop of `Path_normalize` over the tokens; `none` where the stack is full. -/
def tokenLoop : List Bytes → List Bytes → Option (List Bytes)
  | stack, [] => some stack
  | stack, token :: tokens =>
      if strncmpEq 2 token [dot] then tokenLoop stack tokens
      else if strncmpEq 3 token [dot, dot] then
        tokenLoop (if stack.length > 0 then stack.dropLast else stack) tokens
      else if stack.length < 256 then tokenLoop (stack ++ [token]) tokens
      else none

/-- The loop of `Path_normalize` that writes the segments behind the `result`. -/
def writeLoop : List Bytes → Bytes → ℕ → Bytes
  | [], result, _ => result
  | segment :: segments, result, remaining =>
      let segLen := segment.length
      if segLen > remaining then strncat result segment remaining
      else
        let result := strncat result segment remaining
        let remaining := remaining - segLen
        if segments = [] then result
        else if remaining = 0 then result
        else writeLoop segments (strncat result [slash] remaining) (remaining - 1)

/-- `Path_normalize`; `none` for `NULL`. -/
def normalize (path : Bytes) : Option Bytes :=
  let copy := path.take pathMax
  match tokenLoop [] (HttpServer.strtok slash copy) with
  | none => none
  | some stack =>
      let remaining := pathMax - 1
      let result :=
        if isAbsolute path then writeLoop stack (strncat [] [slash] remaining) (remaining - 1)
        else writeLoop stack [] remaining
      if result.length = 0 ∧ ¬isAbsolute path then newPath [dot] else newPath result

/-! ### The meaning of a path -/

/-- The segment of a path between two slashes. -/
def segment (s : Bytes) : Seg Bytes :=
  if s = [] ∨ s = [dot] then .here else if s = [dot, dot] then .up else .name s

/-- The segments of a path. -/
def segments (path : Bytes) : List (Seg Bytes) := (path.splitOn slash).map segment

/-- The names that are live after some segments of the path are never more than the stack has room for. -/
def LiveBounded (path : Bytes) : Prop := ∀ before, before <+: segments path → (walk [] before).length ≤ 256

theorem segments_append (d p : Bytes) : segments (d ++ slash :: p) = segments d ++ segments p := by
  rw [segments, List.splitOn_append_cons_self, List.map_append]
  rfl

theorem segment_of_plain {s : Bytes} (h : PlainSegment s) : segment s = .name s := by
  obtain ⟨hne, hdot, hdots, -⟩ := h
  rw [segment, if_neg (by simp [hne, hdot]), if_neg hdots]

/-- Plain segments joined by slashes are names. -/
theorem segments_intercalate {names : List Bytes} (hne : names ≠ []) (h : ∀ s ∈ names, PlainSegment s) :
    segments ([slash].intercalate names) = names.map .name := by
  rw [segments, List.splitOn_intercalate slash (fun s hs => (h s hs).2.2.2) hne]
  exact List.map_congr_left fun s hs => segment_of_plain (h s hs)

/-! ### The stack -/

/-- The tests of the loop. -/
theorem strncmpEq_dot {token : Bytes} : strncmpEq 2 token [dot] = true ↔ token = [dot] := by
  rw [strncmpEq_iff]
  match token with
  | [] => simp
  | [a] => simp
  | a :: b :: rest => simp

theorem strncmpEq_dots {token : Bytes} : strncmpEq 3 token [dot, dot] = true ↔ token = [dot, dot] := by
  rw [strncmpEq_iff]
  match token with
  | [] => simp
  | [a] => simp
  | [a, b] => simp
  | a :: b :: c :: rest => simp

theorem enter_segment {stack : List Bytes} {s : Bytes} (hs : s ≠ []) : enter stack (segment s) =
    if s = [dot] then stack else if s = [dot, dot] then stack.dropLast else stack ++ [s] := by
  rw [segment]
  by_cases hdot : s = [dot]
  · rw [if_pos hdot, if_pos (.inr hdot), enter]
  · by_cases hdots : s = [dot, dot]
    · rw [if_neg hdot, if_pos hdots, if_neg (by simp [hs, hdot]), if_pos hdots, enter]
    · rw [if_neg hdot, if_neg hdots, if_neg (by simp [hs, hdot]), if_neg hdots, enter]

/-- The stack of `normalize_path` is the lexical resolution. -/
theorem foldl_pushSegment (stack parts : List Bytes) :
    (parts.filter (· ≠ [])).foldl HttpClient.pushSegment stack = walk stack (parts.map segment) := by
  induction parts generalizing stack with
  | nil => rfl
  | cons s parts ih =>
      rw [List.map_cons, walk_cons, ← ih]
      by_cases hs : s = []
      · rw [List.filter_cons_of_neg (by simp [hs]), hs]
        rfl
      · rw [List.filter_cons_of_pos (by simpa using hs), List.foldl_cons, enter_segment hs]
        rfl

/-- The stack of `Path_normalize` too, where it has room. -/
theorem tokenLoop_eq {stack parts : List Bytes}
    (hroom : ∀ before, before <+: parts.map segment → (walk stack before).length ≤ 256) :
    tokenLoop stack (parts.filter (· ≠ [])) = some (walk stack (parts.map segment)) := by
  induction parts generalizing stack with
  | nil => rfl
  | cons s parts ih =>
      have hrest : ∀ before, before <+: parts.map segment →
          (walk (enter stack (segment s)) before).length ≤ 256 := fun before hbefore =>
        hroom (segment s :: before) (List.prefix_cons_inj _ |>.mpr hbefore)
      have hrun := ih hrest
      rw [List.map_cons, walk_cons]
      by_cases hs : s = []
      · rw [List.filter_cons_of_neg (by simp [hs])]
        rw [hs] at hrun ⊢
        exact hrun
      rw [List.filter_cons_of_pos (by simpa using hs), tokenLoop, ← hrun, enter_segment hs]
      simp only [strncmpEq_dot, strncmpEq_dots]
      by_cases hdot : s = [dot]
      · rw [if_pos hdot, if_pos hdot]
      by_cases hdots : s = [dot, dot]
      · rw [if_neg hdot, if_pos hdots, if_neg hdot, if_pos hdots]
        split_ifs with hpos
        · rfl
        · rw [List.eq_nil_of_length_eq_zero (Nat.eq_zero_of_not_pos hpos)]
          rfl
      -- a name: it is live behind its token, so there is room for it
      have hname := hroom [segment s] (by simp)
      rw [walk_cons, walk_nil, enter_segment hs, if_neg hdot, if_neg hdots, List.length_append,
        List.length_singleton] at hname
      rw [if_neg hdot, if_neg hdots, if_neg hdot, if_neg hdots, if_pos (by omega)]

/-! ### The buffer -/

/-- Segments for which there is room are written with slashes between them. -/
theorem writeLoop_eq {names : List Bytes} {result : Bytes} {remaining : ℕ}
    (hroom : ([slash].intercalate names).length ≤ remaining) :
    writeLoop names result remaining = result ++ [slash].intercalate names := by
  induction names generalizing result remaining with
  | nil => exact (List.append_nil result).symm
  | cons s names ih =>
      by_cases hnames : names = []
      · subst hnames
        rw [List.intercalate_singleton] at hroom ⊢
        rw [writeLoop, if_neg (by omega), if_pos rfl, strncat, List.take_of_length_le hroom]
      · rw [List.intercalate_cons_of_ne_nil hnames] at hroom ⊢
        simp only [List.length_append, List.length_singleton] at hroom
        rw [writeLoop, if_neg (by omega), if_neg hnames, if_neg (by omega), ih (by omega), strncat, strncat,
          List.take_of_length_le (by omega), List.take_of_length_le (by rw [List.length_singleton]; omega)]
        simp only [List.append_assoc]

theorem newPath_of_lt {s : Bytes} (h : s.length < pathMax) : newPath s = some s := by
  rw [newPath, if_neg (by rw [pathMax] at h ⊢; omega), List.take_of_length_le h.le]

/-! ### The two functions -/

theorem walk_segments (path : Bytes) : walk [] (segments path) =
    (HttpServer.strtok slash path).foldl HttpClient.pushSegment [] :=
  (foldl_pushSegment [] _).symm

theorem plain_walk (path : Bytes) : ∀ s ∈ walk [] (segments path), PlainSegment s := by
  rw [walk_segments]
  exact HttpClient.plain_foldl_pushSegment (by simp) fun t => HttpClient.mem_strtok

/-- The names of a path are no longer than the path. -/
theorem length_intercalate_walk_le (path : Bytes) :
    ([slash].intercalate (walk [] (segments path))).length ≤ path.length := by
  have hsublist : (walk [] (segments path)).Sublist (path.splitOn slash) := by
    rw [walk_segments]
    exact (HttpClient.sublist_foldl_pushSegment [] _).trans List.filter_sublist
  exact Nat.le_of_succ_le_succ (length_join_le hsublist)

theorem normalizePath_eq {path : Bytes} (h : path ≠ []) :
    HttpClient.normalizePath path = join (walk [] (segments path)) := by
  rw [HttpClient.normalizePath_eq_join h, walk_segments]

theorem intercalate_eq_nil_iff {names : List Bytes} (h : ∀ s ∈ names, PlainSegment s) :
    [slash].intercalate names = [] ↔ names = [] := by
  refine ⟨fun hnil => ?_, fun hnil => by rw [hnil]; rfl⟩
  by_contra hne
  have hsegs := segments_intercalate hne h
  rw [hnil] at hsegs
  cases names with
  | nil => exact hne rfl
  | cons s names => cases hsegs

/-- What `Path_normalize` writes. -/
theorem normalize_eq {path : Bytes} (hlen : path.length < pathMax) (hlive : LiveBounded path) :
    normalize path = some (
      if isAbsolute path then join (walk [] (segments path))
      else if walk [] (segments path) = [] then [dot]
      else [slash].intercalate (walk [] (segments path))) := by
  have hnames := length_intercalate_walk_le path
  have hroot : strncat [] [slash] (pathMax - 1) = [slash] := rfl
  have htokens : tokenLoop [] (HttpServer.strtok slash (path.take pathMax)) =
    some (walk [] (segments path)) := by
    rw [List.take_of_length_le hlen.le]
    exact tokenLoop_eq hlive
  rw [normalize, htokens]
  dsimp only
  by_cases habs : isAbsolute path = true
  · obtain ⟨l, rfl⟩ : ∃ l, path = slash :: l := by
      cases path with
      | nil => cases habs
      | cons c l => exact ⟨l, congrArg (· :: l) (Option.some.inj (beq_iff_eq.mp habs))⟩
    have hjoin := HttpClient.length_normalizePath_le l
    rw [normalizePath_eq (List.cons_ne_nil _ _)] at hjoin
    have hbound : ([slash].intercalate (walk [] (segments (slash :: l)))).length ≤ pathMax - 1 - 1 :=
      Nat.le_sub_of_add_le (hjoin.trans (Nat.le_sub_one_of_lt hlen))
    rw [if_pos habs, if_neg (fun h => h.2 habs), if_pos habs, hroot, writeLoop_eq hbound]
    exact newPath_of_lt (hjoin.trans_lt hlen)
  · rw [if_neg habs, if_neg habs, writeLoop_eq (hnames.trans (Nat.le_sub_one_of_lt hlen)), List.nil_append]
    by_cases hnil : walk [] (segments path) = []
    · rw [if_pos ⟨by rw [hnil]; rfl, habs⟩, if_pos hnil]
      rfl
    · rw [if_neg (fun h => hnil ((intercalate_eq_nil_iff (plain_walk path)).mp
        (List.eq_nil_of_length_eq_zero h.1))),
        if_neg hnil, newPath_of_lt (hnames.trans_lt hlen)]

theorem downs_segments_join {names : List Bytes} (h : ∀ s ∈ names, PlainSegment s) :
    downs (segments (join names)) = names.length := by
  have hjoin : segments (join names) = .here :: segments ([slash].intercalate names) := segments_append [] _
  rw [hjoin]
  by_cases hnames : names = []
  · rw [hnames]
    rfl
  · rw [segments_intercalate hnames h]
    exact downs_names names

/-- Few names are few live ones. -/
theorem liveBounded_of_downs {path : Bytes} (h : downs (segments path) ≤ 256) : LiveBounded path := by
  intro before hbefore
  have hle : (walk [] before).length ≤ [].length + downs before := length_walk_le [] before
  have hdowns : downs before ≤ downs (segments path) := hbefore.sublist.countP_le
  rw [List.length_nil] at hle
  omega

/-- **The two normalisers agree** on absolute paths, on the lexical resolution of the path. -/
theorem normalize_eq_normalizePath {path : Bytes} (habs : isAbsolute path = true)
    (hlen : path.length < pathMax)
    (hlive : LiveBounded path) :
    normalize path = some (HttpClient.normalizePath path) ∧
      HttpClient.normalizePath (HttpClient.normalizePath path) = HttpClient.normalizePath path ∧
      normalize (HttpClient.normalizePath path) = some (HttpClient.normalizePath path) ∧
      (HttpClient.normalizePath path).length ≤ path.length ∧
      ∃ names, HttpClient.normalizePath path = join names ∧ (∀ s ∈ names, PlainSegment s) ∧
        ∀ names', Resolves (segments path) names' ↔ names' = names := by
  have hne : path ≠ [] := by
    rintro rfl
    cases habs
  have hlength : (HttpClient.normalizePath path).length ≤ path.length := by
    cases path with
    | nil => exact absurd rfl hne
    | cons c l =>
        obtain rfl : c = slash := Option.some.inj (beq_iff_eq.mp habs)
        exact HttpClient.length_normalizePath_le l
  have hidem := HttpClient.normalizePath_of_normal (HttpClient.normal_normalizePath hne)
  have hpath := normalize_eq hlen hlive
  rw [if_pos habs, ← normalizePath_eq hne] at hpath
  refine ⟨hpath, hidem, ?_, hlength, _, normalizePath_eq hne, plain_walk path, fun names' => resolves_iff⟩
  -- the normalised path has as many names as were live at the end
  have hjoin : HttpClient.normalizePath path ≠ [] := by
    rw [normalizePath_eq hne]
    exact List.cons_ne_nil _ _
  have habs' : isAbsolute (HttpClient.normalizePath path) = true := by
    rw [normalizePath_eq hne]
    rfl
  have hlive' : LiveBounded (HttpClient.normalizePath path) := by
    refine liveBounded_of_downs ?_
    rw [normalizePath_eq hne, downs_segments_join (plain_walk path)]
    exact hlive (segments path) (List.prefix_refl _)
  rw [normalize_eq (hlength.trans_lt hlen) hlive', if_pos habs', ← normalizePath_eq hjoin, hidem]

theorem normalize_eq_normalizePath_dots :
    normalize (ascii ['/', 'a', '/', '.', '.', '/', '.', '.', '/', 'b', '/', '/', '.', '/', 'c']) =
      some (HttpClient.normalizePath
        (ascii ['/', 'a', '/', '.', '.', '/', '.', '.', '/', 'b', '/', '/', '.', '/', 'c'])) :=
  (normalize_eq_normalizePath (by decide) (by decide) (liveBounded_of_downs (by decide))).1

/-! ### Relative paths -/

theorem liveBounded_of_tokens {path : Bytes} (h : (HttpServer.strtok slash path).length ≤ 256) :
    LiveBounded path := by
  refine liveBounded_of_downs (le_trans ?_ h)
  rw [downs, segments, List.countP_map, HttpServer.strtok, ← List.countP_eq_length_filter]
  refine List.countP_mono_left fun s _ hname => decide_eq_true ?_
  rintro rfl
  cases hname

/-- What the path behind a directory resolves to. -/
theorem resolves_append_iff {d p : Bytes} {names : List Bytes} :
    Resolves (segments (d ++ slash :: p)) names ↔ names = walk (walk [] (segments d)) (segments p) := by
  rw [resolves_iff, segments_append, walk_append]

/-- **A relative path keeps its meaning** exactly if no `..` is left over, or if it is taken from the root. -/
theorem normalize_relative_iff {p : Bytes} (hrel : isAbsolute p = false) (hlen : p.length < pathMax)
    (hsegs : (HttpServer.strtok slash p).length ≤ 256) (d : Bytes) :
    ∃ q, normalize p = some q ∧
      ((∀ names, Resolves (segments (d ++ slash :: q)) names ↔
        Resolves (segments (d ++ slash :: p)) names) ↔
        NeverClimbs (segments p) ∨ Resolves (segments d) []) := by
  have hrel' : ¬isAbsolute p = true := by
    rw [hrel]
    exact Bool.false_ne_true
  refine ⟨_, normalize_eq hlen (liveBounded_of_tokens hsegs), ?_⟩
  rw [if_neg hrel']
  have hwalk := walk_eq (walk [] (segments d)) (segments p)
  have hnames : walk [] (segments p) = (climb (segments p)).2 := by
    rw [walk_eq, List.take_nil, List.nil_append]
  -- the result goes down the names, and climbs no level
  have hresult : walk (walk [] (segments d)) (segments
      (if walk [] (segments p) = [] then [dot] else [slash].intercalate (walk [] (segments p)))) =
      walk [] (segments d) ++ (climb (segments p)).2 := by
    rw [← hnames]
    split_ifs with hnil
    · rw [hnil, List.append_nil]
      rfl
    · rw [segments_intercalate hnil (plain_walk p), walk_names]
  simp only [resolves_append_iff, hresult, hwalk]
  rw [← climb_eq_zero_iff, @resolves_iff _ (segments d)]
  generalize walk [] (segments d) = dir
  generalize climb (segments p) = c
  constructor
  · intro h
    have heq := congrArg List.length ((h _).mp rfl)
    rw [List.length_append, List.length_append, List.length_take] at heq
    by_cases hdir : dir = []
    · exact .inr hdir.symm
    · have hpos := List.length_pos_iff.mpr hdir
      refine .inl ?_
      omega
  · rintro (hzero | hroot) names
    · rw [hzero, Nat.sub_zero, List.take_length]
    · rw [← hroot, List.take_nil]

theorem normalize_relative_inside :
    ∃ q, normalize (ascii ['a', '/', '.', '.', '/', 'x']) = some q ∧
      ∀ names, Resolves (segments (ascii ['/', 'd'] ++ slash :: q)) names ↔
        Resolves (segments (ascii ['/', 'd'] ++ slash :: ascii ['a', '/', '.', '.', '/', 'x'])) names := by
  obtain ⟨q, hq, hiff⟩ := @normalize_relative_iff (ascii ['a', '/', '.', '.', '/', 'x']) (by decide)
    (by decide)
    (by decide) (ascii ['/', 'd'])
  exact ⟨q, hq, hiff.mpr (.inl (climb_eq_zero_iff.mp rfl))⟩

/-- The level that `../x` climbs from `/a` is lost. -/
theorem normalize_relative_lost :
    normalize (ascii ['.', '.', '/', 'x']) = some (ascii ['x']) ∧
      Resolves (segments (ascii ['/', 'a'] ++ slash :: ascii ['x'])) [ascii ['a'], ascii ['x']] ∧
      Resolves (segments (ascii ['/', 'a'] ++ slash :: ascii ['.', '.', '/', 'x'])) [ascii ['x']] ∧
      ¬Resolves (segments (ascii ['/', 'a'] ++ slash :: ascii ['.', '.', '/', 'x']))
        [ascii ['a'], ascii ['x']] :=
  ⟨rfl, resolves_iff.mpr rfl, resolves_iff.mpr rfl, fun h => absurd (resolves_iff.mp h) (by decide)⟩

end PathObj
