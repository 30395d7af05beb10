import LibCore.HashMapRefine
import LibCore.HttpRequest
import LibCore.PathValidator

/-!
# The Router

`router.c`: a request is dispatched to the first registered route that matches its path. A
path is cut at its slashes into at most 32 segments; a route matches statically, segment by
segment, or dynamically, where a segment `:name` of the route takes any segment of the path
and binds it. Static matches go first. Allocation succeeds, and the handler of a registered
route is never `NULL`.

## Main definitions

* `splitSegments`, `routeMatch`: matching one route.
* `findRoute`, `dispatch`: searching the table.
* `SegmentMatch`, `chosen`, `bound`: what matching and dispatching are for.

## Main results

* `routeMatch_sound_iff`: a match is a match of all segments, exactly unless the segments
  behind the first 32 differ.
* `dispatch_eq`: dispatching picks the first route in the order of the passes, and the
  parameters are those of the chosen route.
-/

open CString PathValidator HttpServer

namespace Router

/-! ### The model -/

/-- `':'`. -/
abbrev colon : UInt8 := 0x3A

/-- `split_segments`. -/
def splitSegments (path : Bytes) (maxSegs : ℕ) : List Bytes := (strtok slash path).take maxSegs

/-- The first pass: equal segments, none of them a parameter. -/
def staticLoop : List Bytes → List Bytes → Bool
  | [], _ => true
  | _ :: _, [] => false
  | r :: rs, q :: qs =>
      if r.head? = some colon then false else if r ≠ q then false else staticLoop rs qs

/-- The second pass: equal segments where the route has no parameter. -/
def paramLoop : List Bytes → List Bytes → Bool
  | [], _ => true
  | _ :: _, [] => false
  | r :: rs, q :: qs =>
      if r.head? ≠ some colon then if r ≠ q then false else paramLoop rs qs else paramLoop rs qs

/-- The loop that puts the parameters of a matching route into the map. -/
def injectLoop : HashMap Bytes → List Bytes → List Bytes → HashMap Bytes
  | params, r :: rs, q :: qs =>
      injectLoop (if r.head? = some colon then params.put (r.drop 1) q else params) rs qs
  | params, _, _ => params

/-- `route_match`: what it returns, and the parameters afterwards; `none` for `NULL`. -/
def routeMatch (routePath reqPath : Bytes) (params : Option (HashMap Bytes)) (isParamPass : Bool) :
    Bool × Option (HashMap Bytes) :=
  let rSegs := splitSegments routePath 32
  let qSegs := splitSegments reqPath 32
  if rSegs.length ≠ qSegs.length then (false, params)
  else if isParamPass then
    if paramLoop rSegs qSegs then (true, params.map fun m => injectLoop m rSegs qSegs)
    else (false, params)
  else (staticLoop rSegs qSegs, params)

/-- `Route`, with a handler of any kind. -/
structure Route (H : Type) where
  method : HttpMethod
  path : Bytes
  handler : H

variable {H : Type}

/-- One pass over the table, for the routes whose method is accepted: the route that matches,
and the parameters of the request afterwards. -/
def findRoute (accepts : HttpMethod → Bool) (safePath : Bytes) (isDynamic : Bool) :
    List (Route H) → HashMap Bytes → Option (Route H) × HashMap Bytes
  | [], params => (none, params)
  | r :: routes, params =>
      if accepts r.method then
        match routeMatch r.path safePath (if isDynamic then some params else none) isDynamic with
        | (true, params') => (some r, params'.getD params)
        | (false, params') => findRoute accepts safePath isDynamic routes (params'.getD params)
      else findRoute accepts safePath isDynamic routes params

/-- `find_route_head_helper`. -/
def findRouteHeadHelper (routes : List (Route H)) (method : HttpMethod) (safePath : Bytes)
    (isDynamic : Bool) (params : HashMap Bytes) : Option (Route H) × HashMap Bytes :=
  findRoute (fun m => decide (m = method)) safePath isDynamic routes params

/-- Passes one after the other, until one of them matches. -/
def firstPass : List (HashMap Bytes → Option (Route H) × HashMap Bytes) → HashMap Bytes →
    Option (Route H) × HashMap Bytes
  | [], params => (none, params)
  | pass :: passes, params =>
      match pass params with
      | (some r, params) => (some r, params)
      | (none, params) => firstPass passes params

/-- The error answers of the router. -/
inductive RouterError
  | badRequest
  | notFound
deriving DecidableEq

/-- Status and code of an error answer. -/
def RouterError.statusAndCode : RouterError → ℕ × String
  | .badRequest => (400, "Bad_Request")
  | .notFound => (404, "Route_Not_Found")

/-- What a request is answered with: the handler that is called, or an error. -/
inductive Dispatched (H : Type)
  | call (handler : H)
  | error (e : RouterError)
deriving DecidableEq

/-- `impl_dispatch`: the answer, and the parameters of the request afterwards. The path of a
request is `none` for `NULL`. -/
def dispatch (routes : List (Route H)) (method : HttpMethod) (path : Option Bytes)
    (params : HashMap Bytes) : Dispatched H × HashMap Bytes :=
  match validate (maxPathLen + 1) (path.getD [slash]) with
  | none => (.error .badRequest, params)
  | some safePath =>
      let matched :=
        if method = .head then
          firstPass [findRouteHeadHelper routes .head safePath false,
            findRouteHeadHelper routes .unknown safePath false,
            findRouteHeadHelper routes .get safePath false,
            findRouteHeadHelper routes .head safePath true,
            findRouteHeadHelper routes .unknown safePath true,
            findRouteHeadHelper routes .get safePath true] params
        else
          let accepts := fun m => decide (m = method ∨ m = .unknown)
          firstPass [findRoute accepts safePath false routes,
            findRoute accepts safePath true routes] params
      match matched with
      | (some r, params) => (.call r.handler, params)
      | (none, params) => (.error .notFound, params)

/-! ### Matching -/

/-- A segment of a route matches a segment of a path: a parameter takes any segment in the
dynamic pass and none in the static one. -/
def SegmentMatch (isParamPass : Bool) (r q : Bytes) : Prop :=
  if r.head? = some colon then isParamPass = true else r = q

instance (isParamPass : Bool) (r q : Bytes) : Decidable (SegmentMatch isParamPass r q) :=
  inferInstanceAs (Decidable (if r.head? = some colon then isParamPass = true else r = q))

/-- The segments of a route match those of a path, one by one. -/
def Matches (isParamPass : Bool) (routePath reqPath : Bytes) : Prop :=
  List.Forall₂ (SegmentMatch isParamPass) (strtok slash routePath) (strtok slash reqPath)

instance (isParamPass : Bool) (routePath reqPath : Bytes) :
    Decidable (Matches isParamPass routePath reqPath) :=
  inferInstanceAs (Decidable (List.Forall₂ _ _ _))

theorem staticLoop_iff {rs qs : List Bytes} :
    rs.length = qs.length ∧ staticLoop rs qs = true ↔
      List.Forall₂ (SegmentMatch false) rs qs := by
  induction rs generalizing qs with
  | nil => cases qs <;> simp [staticLoop]
  | cons r rs ih =>
      cases qs with
      | nil => simp
      | cons q qs =>
          rw [List.forall₂_cons, ← ih, staticLoop, SegmentMatch]
          split_ifs with hcolon hne
          · simp
          · simp [hne]
          · simp [not_not.mp hne]

theorem paramLoop_iff {rs qs : List Bytes} :
    rs.length = qs.length ∧ paramLoop rs qs = true ↔ List.Forall₂ (SegmentMatch true) rs qs := by
  induction rs generalizing qs with
  | nil => cases qs <;> simp [paramLoop]
  | cons r rs ih =>
      cases qs with
      | nil => simp
      | cons q qs =>
          rw [List.forall₂_cons, ← ih, paramLoop, SegmentMatch]
          by_cases hcolon : r.head? = some colon
          · simp [hcolon]
          · by_cases hne : r = q <;> simp [hcolon, hne]

/-- The matcher compares the **first 32 segments**. -/
theorem routeMatch_fst_iff {routePath reqPath : Bytes} {params : Option (HashMap Bytes)}
    {isParamPass : Bool} :
    (routeMatch routePath reqPath params isParamPass).1 = true ↔
      List.Forall₂ (SegmentMatch isParamPass) (splitSegments routePath 32)
        (splitSegments reqPath 32) := by
  unfold routeMatch
  simp only
  split_ifs with hlen hpass hloop
  · simp only [false_iff]
    exact fun h => hlen h.length_eq
  · rw [hpass, ← paramLoop_iff]
    simp [not_not.mp hlen, hloop]
  · rw [hpass, ← paramLoop_iff]
    simp [hloop]
  · rw [Bool.not_eq_true] at hpass
    rw [hpass, ← staticLoop_iff]
    simp [not_not.mp hlen]

/-- **Soundness of a match**: the segments of the route and of the path agree in number; a
segment of the route that is no parameter equals the one at its position; and in the static
pass there are no parameters. -/
structure SoundMatch (isParamPass : Bool) (rs qs : List Bytes) : Prop where
  length_eq : rs.length = qs.length
  segment_eq : ∀ (i : ℕ) (r q : Bytes), rs[i]? = some r → qs[i]? = some q → r.head? ≠ some colon → r = q
  no_param : isParamPass = false → ∀ r ∈ rs, r.head? ≠ some colon

theorem soundMatch_iff {isParamPass : Bool} {rs qs : List Bytes} :
    SoundMatch isParamPass rs qs ↔ List.Forall₂ (SegmentMatch isParamPass) rs qs := by
  constructor
  · intro h
    refine List.forall₂_iff_get.mpr ⟨h.length_eq, ?_⟩
    intro i hr hq
    rw [SegmentMatch]
    split_ifs with hcolon
    · by_contra hpass
      exact h.no_param (by simpa using hpass) _ (List.get_mem rs ⟨i, hr⟩) hcolon
    · exact h.segment_eq i _ _ (by simp) (by simp) hcolon
  · intro h
    induction h with
    | nil => exact ⟨rfl, by simp, by simp⟩
    | @cons r q rs qs hrq _ ih =>
        rw [SegmentMatch] at hrq
        refine ⟨by simp [ih.length_eq], ?_, ?_⟩
        · intro i r' q' hr hq hcolon
          cases i with
          | zero =>
              simp only [List.getElem?_cons_zero, Option.some.injEq] at hr hq
              subst hr hq
              rwa [if_neg hcolon] at hrq
          | succ i => exact ih.segment_eq i r' q' (by simpa using hr) (by simpa using hq) hcolon
        · intro hpass r' hr'
          rcases List.mem_cons.mp hr' with rfl | hr'
          · intro hcolon
            simp [hcolon, hpass] at hrq
          · exact ih.no_param hpass r' hr'

theorem forall₂_take_drop {α β : Type} {R : α → β → Prop} (n : ℕ) (xs : List α) (ys : List β) :
    List.Forall₂ R xs ys ↔
      List.Forall₂ R (xs.take n) (ys.take n) ∧ List.Forall₂ R (xs.drop n) (ys.drop n) := by
  constructor
  · intro h
    exact ⟨List.forall₂_take n h, List.forall₂_drop n h⟩
  · rintro ⟨htake, hdrop⟩
    rw [← List.take_append_drop n xs, ← List.take_append_drop n ys]
    exact List.rel_append htake hdrop

/-- When matching is **sound**: exactly if the segments behind the first 32 match whenever the
first 32 do. -/
theorem routeMatch_sound_iff (routePath reqPath : Bytes) (params : Option (HashMap Bytes))
    (isParamPass : Bool) :
    ((routeMatch routePath reqPath params isParamPass).1 = true →
        SoundMatch isParamPass (strtok slash routePath) (strtok slash reqPath)) ↔
      (SoundMatch isParamPass ((strtok slash routePath).take 32) ((strtok slash reqPath).take 32) →
        SoundMatch isParamPass ((strtok slash routePath).drop 32)
          ((strtok slash reqPath).drop 32)) := by
  simp only [soundMatch_iff, routeMatch_fst_iff, splitSegments]
  rw [forall₂_take_drop 32 (strtok slash routePath)]
  tauto

/-- Thirty-two and thirty-three segments `a`. The second path is canonical. -/
theorem routeMatch_unsound :
    ¬∀ (routePath raw reqPath : Bytes) (params : Option (HashMap Bytes)) (isParamPass : Bool),
      validate (maxPathLen + 1) raw = some reqPath →
      (routeMatch routePath reqPath params isParamPass).1 = true →
        SoundMatch isParamPass (strtok slash routePath) (strtok slash reqPath) := by
  intro h
  have hmatch := h ((List.replicate 32 [slash, 0x61]).flatten)
    ((List.replicate 33 [slash, 0x61]).flatten) ((List.replicate 33 [slash, 0x61]).flatten) none
    false (by decide +kernel) (by decide +kernel)
  exact absurd hmatch.length_eq (by decide +kernel)

/-! ### Parameters -/

/-- The bindings of the parameters of a route, in the order of its segments. -/
def bindings : List Bytes → List Bytes → List (Bytes × Bytes)
  | r :: rs, q :: qs =>
      if r.head? = some colon then (r.drop 1, q) :: bindings rs qs else bindings rs qs
  | _, _ => []

/-- The finite map of bindings; of two bindings of one name the later one counts. -/
def bound (routePath reqPath : Bytes) : HashMap.FMap Bytes :=
  (bindings (strtok slash routePath) (strtok slash reqPath)).foldl
    (fun f b => f.insert b.1 b.2) ∅

/-- The names of the parameters of a route fit into a key of the map. -/
def ShortNames (rs : List Bytes) : Prop :=
  ∀ r ∈ rs, r.head? = some colon → (r.drop 1).length < maxKeyLen

instance (rs : List Bytes) : Decidable (ShortNames rs) :=
  inferInstanceAs (Decidable (∀ r ∈ rs, _ → _))

/-- The loop puts the bindings of the route, one after the other. -/
theorem represents_injectLoop {rs qs : List Bytes} (hnames : ShortNames rs) {m : HashMap Bytes}
    {f : HashMap.FMap Bytes} (h : HashMap.Represents m f) :
    HashMap.Represents (injectLoop m rs qs)
      ((bindings rs qs).foldl (fun f b => f.insert b.1 b.2) f) := by
  induction rs generalizing qs m f with
  | nil => simpa [injectLoop, bindings] using h
  | cons r rs ih =>
      obtain ⟨hname, hnames⟩ := List.forall_mem_cons.mp hnames
      cases qs with
      | nil => simpa [injectLoop, bindings] using h
      | cons q qs =>
          rw [injectLoop, bindings]
          split_ifs with hcolon
          · exact ih hnames (h.put (hname hcolon) q)
          · exact ih hnames h

/-! ### Dispatching -/

/-- The first registered route with an accepted method that matches, and the kind of match. -/
def firstMatch (routes : List (Route H)) (accepts : HttpMethod → Bool) (isDynamic : Bool)
    (safePath : Bytes) : Option (Route H × Bool) :=
  (routes.find? fun r => accepts r.method && decide (Matches isDynamic r.path safePath)).map
    fun r => (r, isDynamic)

/-- The route a request is for. A route for every method counts as one for the method of the
request; a `HEAD` request prefers its own routes, then those, and falls back to `GET`. -/
def chosen (routes : List (Route H)) (method : HttpMethod) (safePath : Bytes) :
    Option (Route H × Bool) :=
  if method = .head then
    firstMatch routes (fun m => decide (m = .head)) false safePath <|>
    firstMatch routes (fun m => decide (m = .unknown)) false safePath <|>
    firstMatch routes (fun m => decide (m = .get)) false safePath <|>
    firstMatch routes (fun m => decide (m = .head)) true safePath <|>
    firstMatch routes (fun m => decide (m = .unknown)) true safePath <|>
    firstMatch routes (fun m => decide (m = .get)) true safePath
  else
    firstMatch routes (fun m => decide (m = method ∨ m = .unknown)) false safePath <|>
    firstMatch routes (fun m => decide (m = method ∨ m = .unknown)) true safePath

/-- With at most 32 segments on both sides a match is a match of all segments, and only a
dynamic match touches the parameters. -/
theorem routeMatch_eq {routePath reqPath : Bytes} (hr : (strtok slash routePath).length ≤ 32)
    (hq : (strtok slash reqPath).length ≤ 32) (params : HashMap Bytes) (isDynamic : Bool) :
    routeMatch routePath reqPath (if isDynamic then some params else none) isDynamic =
      if Matches isDynamic routePath reqPath then
        (true, if isDynamic then
          some (injectLoop params (strtok slash routePath) (strtok slash reqPath)) else none)
      else (false, if isDynamic then some params else none) := by
  rw [routeMatch, splitSegments, splitSegments, List.take_of_length_le hr,
    List.take_of_length_le hq]
  cases isDynamic with
  | false =>
      have hiff : Matches false routePath reqPath ↔ _ := staticLoop_iff.symm
      simp only [hiff, Bool.false_eq_true, if_false]
      by_cases hlen : (strtok slash routePath).length = (strtok slash reqPath).length
      · by_cases hloop : staticLoop (strtok slash routePath) (strtok slash reqPath) = true <;>
          simp [hlen, hloop]
      · simp [hlen]
  | true =>
      have hiff : Matches true routePath reqPath ↔ _ := paramLoop_iff.symm
      simp only [hiff, if_true, Option.map_some]
      by_cases hlen : (strtok slash routePath).length = (strtok slash reqPath).length
      · by_cases hloop : paramLoop (strtok slash routePath) (strtok slash reqPath) = true <;>
          simp [hlen, hloop]
      · simp [hlen]

/-- The parameters after the search: those of a dynamic match, and no others. -/
def paramsAfter (params : HashMap Bytes) (safePath : Bytes) :
    Option (Route H × Bool) → Option (Route H) × HashMap Bytes
  | none => (none, params)
  | some (r, isDynamic) =>
      (some r, if isDynamic then injectLoop params (strtok slash r.path) (strtok slash safePath)
        else params)

/-- One pass finds **the first match**, and routes it rejects leave no parameters behind. -/
theorem findRoute_eq {routes : List (Route H)} {safePath : Bytes}
    (hroutes : ∀ r ∈ routes, (strtok slash r.path).length ≤ 32)
    (hsegs : (strtok slash safePath).length ≤ 32) (accepts : HttpMethod → Bool) (isDynamic : Bool)
    (params : HashMap Bytes) :
    findRoute accepts safePath isDynamic routes params =
      paramsAfter params safePath (firstMatch routes accepts isDynamic safePath) := by
  induction routes with
  | nil => rfl
  | cons r routes ih =>
      obtain ⟨hr, hroutes⟩ := List.forall_mem_cons.mp hroutes
      rw [findRoute, routeMatch_eq hr hsegs, firstMatch, List.find?_cons]
      by_cases haccepts : accepts r.method = true
      · by_cases hmatch : Matches isDynamic r.path safePath
        · cases isDynamic <;> simp [haccepts, hmatch, paramsAfter]
        · have hrest : (if isDynamic then some params else none).getD params = params := by
            cases isDynamic <;> rfl
          simp only [haccepts, if_true, hmatch, if_false, hrest, decide_false, Bool.and_false]
          exact ih hroutes
      · rw [Bool.not_eq_true] at haccepts
        simp only [haccepts, Bool.false_eq_true, if_false, Bool.false_and]
        exact ih hroutes

theorem firstPass_cons {pass : HashMap Bytes → Option (Route H) × HashMap Bytes}
    {passes : List (HashMap Bytes → Option (Route H) × HashMap Bytes)} {params : HashMap Bytes}
    {safePath : Bytes} {o o' : Option (Route H × Bool)}
    (hpass : pass params = paramsAfter params safePath o)
    (hpasses : firstPass passes params = paramsAfter params safePath o') :
    firstPass (pass :: passes) params = paramsAfter params safePath (o <|> o') := by
  rw [firstPass, hpass]
  cases o with
  | none => exact hpasses
  | some r => rfl

theorem firstPass_single {pass : HashMap Bytes → Option (Route H) × HashMap Bytes}
    {params : HashMap Bytes} {safePath : Bytes} {o : Option (Route H × Bool)}
    (hpass : pass params = paramsAfter params safePath o) :
    firstPass [pass] params = paramsAfter params safePath o := by
  have hnone : firstPass ([] : List (HashMap Bytes → Option (Route H) × HashMap Bytes)) params =
      paramsAfter params safePath none := rfl
  rw [firstPass_cons hpass hnone]
  cases o <;> rfl

/-- The whole search finds the chosen route. -/
theorem dispatch_paramsAfter {routes : List (Route H)} {safePath : Bytes}
    (hroutes : ∀ r ∈ routes, (strtok slash r.path).length ≤ 32)
    (hsegs : (strtok slash safePath).length ≤ 32) (method : HttpMethod) {path : Option Bytes}
    (hsafe : validate (maxPathLen + 1) (path.getD [slash]) = some safePath)
    (params : HashMap Bytes) :
    dispatch routes method path params =
      match paramsAfter params safePath (chosen routes method safePath) with
      | (some r, params) => (.call r.handler, params)
      | (none, params) => (.error .notFound, params) := by
  have hfind := findRoute_eq hroutes hsegs
  have hhelper : ∀ m d, findRouteHeadHelper routes m safePath d params = paramsAfter params safePath
      (firstMatch routes (fun m' => decide (m' = m)) d safePath) := fun m d => hfind _ d params
  rw [dispatch, hsafe, chosen]
  simp only
  split_ifs with hhead
  · rw [firstPass_cons (hhelper .head false) <| firstPass_cons (hhelper .unknown false) <|
      firstPass_cons (hhelper .get false) <| firstPass_cons (hhelper .head true) <|
      firstPass_cons (hhelper .unknown true) <| firstPass_single (hhelper .get true)]
  · rw [firstPass_cons (hfind _ false params) <| firstPass_single (hfind _ true params)]

/-- A chosen route is registered. -/
theorem mem_of_chosen {routes : List (Route H)} {method : HttpMethod} {safePath : Bytes}
    {r : Route H} {isDynamic : Bool} (h : chosen routes method safePath = some (r, isDynamic)) :
    r ∈ routes := by
  have hmem : ∀ accepts d, firstMatch routes accepts d safePath = some (r, isDynamic) →
      r ∈ routes := by
    intro accepts d hfirst
    obtain ⟨r', hr', heq⟩ := Option.map_eq_some_iff.mp hfirst
    obtain ⟨rfl, -⟩ := Prod.mk.inj heq
    exact List.mem_of_find?_eq_some hr'
  have hor : ∀ o o' : Option (Route H × Bool), (o <|> o') = some (r, isDynamic) →
      (o' = some (r, isDynamic) → r ∈ routes) → (o = some (r, isDynamic) → r ∈ routes) →
        r ∈ routes := by
    intro o o' ho h' h
    cases o with
    | none => exact h' ho
    | some choice => exact h ho
  rw [chosen] at h
  split_ifs at h
  · refine hor _ _ h (fun h => ?_) (hmem _ _)
    refine hor _ _ h (fun h => ?_) (hmem _ _)
    refine hor _ _ h (fun h => ?_) (hmem _ _)
    refine hor _ _ h (fun h => ?_) (hmem _ _)
    exact hor _ _ h (hmem _ _) (hmem _ _)
  · exact hor _ _ h (hmem _ _) (hmem _ _)

/-- **Dispatching**: for a path and routes of at most 32 segments, the first route in the order
of the passes is called, or the answer is 404; and the parameters are the bindings of that
route, or none if it matched statically. -/
theorem dispatch_eq (routes : List (Route H)) (method : HttpMethod) (path : Option Bytes)
    (params : HashMap Bytes) (safePath : Bytes) (hparams : HashMap.Represents params ∅)
    (hsafe : validate (maxPathLen + 1) (path.getD [slash]) = some safePath)
    (hsegs : (strtok slash safePath).length ≤ 32)
    (hroutes : ∀ r ∈ routes, (strtok slash r.path).length ≤ 32)
    (hnames : ∀ r ∈ routes, ShortNames (strtok slash r.path)) :
    match chosen routes method safePath with
    | none => dispatch routes method path params = (.error .notFound, params)
    | some (r, isDynamic) => ∃ params', dispatch routes method path params =
          (.call r.handler, params') ∧
        HashMap.Represents params' (if isDynamic then bound r.path safePath else ∅) := by
  rw [dispatch_paramsAfter hroutes hsegs method hsafe]
  cases hchosen : chosen routes method safePath with
  | none => rfl
  | some choice =>
      obtain ⟨r, isDynamic⟩ := choice
      refine ⟨_, rfl, ?_⟩
      cases isDynamic with
      | false => exact hparams
      | true => exact represents_injectLoop (hnames r (mem_of_chosen hchosen)) hparams

/-- A request for `/b/7` meets `/:x/:y` for `POST`, `/b/7/c` and `/b/:id`. -/
theorem dispatch_sample :
    ∃ params', dispatch [⟨.post, ascii ['/', ':', 'x', '/', ':', 'y'], 0⟩,
        ⟨.get, ascii ['/', 'b', '/', '7', '/', 'c'], 1⟩, ⟨.get, ascii ['/', 'b', '/', ':', 'i', 'd'], 2⟩]
        .get (some (ascii ['/', 'b', '/', '.', '/', '%', '3', '7', '/'])) (HashMap.new 8) =
          (.call 2, params') ∧
      HashMap.Represents params' (bound (ascii ['/', 'b', '/', ':', 'i', 'd'])
        (ascii ['/', 'b', '/', '7'])) :=
  dispatch_eq [⟨.post, ascii ['/', ':', 'x', '/', ':', 'y'], 0⟩,
    ⟨.get, ascii ['/', 'b', '/', '7', '/', 'c'], 1⟩, ⟨.get, ascii ['/', 'b', '/', ':', 'i', 'd'], 2⟩]
    .get (some (ascii ['/', 'b', '/', '.', '/', '%', '3', '7', '/'])) (HashMap.new 8)
    (ascii ['/', 'b', '/', '7']) (HashMap.represents_new 8)
    (by decide +kernel) (by decide +kernel) (by decide +kernel) (by decide +kernel)

end Router
