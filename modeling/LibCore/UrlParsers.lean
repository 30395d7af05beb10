import LibCore.HttpResponseHead

/-!
# The Two URL Parsers

`parse_url` of `socket_base.c`, with what `HttpTransport_connect` makes of its result, and
`UrlInfo_parse` of `transport_factory.c`. The first splits the authority at its last colon, after
copying it to a buffer of 256 bytes, and leaves default ports to the caller; the second splits at the
first colon and has the whole text. A URL is a C string, and positions in it are offsets.

## Main results

* `endpointOf_eq`, `UrlInfo.parse_eq`: what each makes of a URL given by its parts.
* `url_parsers_agree_iff`: the URLs both accept on which they agree.
-/

open CString HttpServer

/-- The text `://`. -/
def schemeSep : Bytes := ascii [':', '/', '/']

/-- `'/'`. -/
abbrev slashByte : UInt8 := 0x2F

/-- `'?'`. -/
abbrev queryByte : UInt8 := 0x3F

/-- `strrchr`: the offset of the last `c`. -/
def strrchr (c : UInt8) (s : Bytes) : Option ℕ :=
  (memchr c s.reverse).map fun i => s.length - 1 - i

/-! ### Ports -/

/-- A round of the loop of `parse_port_strict_n`. -/
def pushPortDigit (v : ℕ) (ch : UInt8) : Option ℕ :=
  if isdigit ch then
    let d := ch.toNat - 0x30
    if v > (65535 - d) / 10 then none else some (v * 10 + d)
  else none

/-- `parse_port_strict_n`, and `parse_port_strict` on a whole string. -/
def parsePortStrict (s : Bytes) : Option ℕ := do
  if s = [] then none
  else
    let v ← s.foldlM pushPortDigit 0
    if v = 0 then none else some v

/-! ### `parse_url` -/

/-- The keys of the map. -/
def schemeKey : Bytes := ascii ['s', 'c', 'h', 'e', 'm', 'e']

@[inherit_doc schemeKey]
def pathKey : Bytes := ascii ['p', 'a', 't', 'h']

@[inherit_doc schemeKey]
def hostKey : Bytes := ascii ['h', 'o', 's', 't']

@[inherit_doc schemeKey]
def portKey : Bytes := ascii ['p', 'o', 'r', 't']

/-- The scheme `unix`. -/
def unixScheme : Bytes := ascii ['u', 'n', 'i', 'x']

/-- `parse_url`. -/
def parseUrl (url : Bytes) : Option (HashMap Bytes) := do
  let sep ← strstr schemeSep url
  -- `char scheme[16]`
  let scheme := url.take (min sep 15)
  let result := (HashMap.new 30).put schemeKey scheme
  let rest := url.drop (sep + 3)
  if strncmpEq 16 scheme unixScheme then
    some ((result.put pathKey rest).put portKey (ascii ['0']))
  else
    let pathStart := memchr slashByte rest
    let result := pathStart.elim result fun i => result.put pathKey (rest.drop i)
    -- `char hostport[256]`
    let hostport := rest.take (min (pathStart.getD rest.length) 255)
    match strrchr colonByte hostport with
    | some i => some ((result.put hostKey (hostport.take i)).put portKey (hostport.drop (i + 1)))
    | none => some (result.put hostKey hostport)

/-- The scheme `http`. -/
def httpScheme : Bytes := ascii ['h', 't', 't', 'p']

/-- The scheme `https`. -/
def httpsScheme : Bytes := ascii ['h', 't', 't', 'p', 's']

/-- Where `HttpTransport_connect` connects to, and the path it asks for. -/
structure Endpoint where
  scheme : Bytes
  host : Bytes
  port : ℕ
  path : Bytes
deriving DecidableEq

/-- `strcasecmp(a, b) == 0`. -/
def strcasecmpEq (a b : Bytes) : Bool := a.map tolower = b.map tolower

/-- What `HttpTransport_connect` makes of a URL before it opens a socket: a port that is absent is the
default of the scheme, and one that is there has to be valid. -/
def endpointOf (url : Bytes) : Option Endpoint := do
  let info ← parseUrl url
  let scheme ← info.get schemeKey
  let host ← info.get hostKey
  let port ←
    match info.get portKey with
    | none => some (if strcasecmpEq scheme httpsScheme then 443 else 80)
    | some text => parsePortStrict text
  let path := (info.get pathKey).getD []
  some ⟨scheme, host, port, if path = [] then [slashByte] else path⟩

/-! ### `UrlInfo_parse` -/

/-- `UrlInfo`. -/
structure UrlInfo where
  scheme : Bytes
  host : Bytes
  port : ℕ
  path : Bytes
  query : Option Bytes
deriving DecidableEq

namespace UrlInfo

/-- The default port of a scheme. -/
def defaultPort (scheme : Bytes) : ℕ :=
  if scheme = httpsScheme ∨ scheme = ascii ['w', 's', 's'] ∨ scheme = ascii ['s', 's', 'l'] then 443
  else 80

/-- The last step of `UrlInfo_parse`: the path up to the query, and the query. -/
def withPath (scheme host : Bytes) (port : ℕ) : Option Bytes → UrlInfo
  | none => ⟨scheme, host, port, [slashByte], none⟩
  | some path =>
      match memchr queryByte path with
      | none => ⟨scheme, host, port, path, none⟩
      | some q => ⟨scheme, host, port, path.take q, some (path.drop (q + 1))⟩

/-- `UrlInfo_parse`. -/
def parse (url : Bytes) : Option UrlInfo := do
  let sep := strstr schemeSep url
  let scheme := sep.elim httpScheme fun i => url.take i
  let p := sep.elim url fun i => url.drop (i + 3)
  let pathStart := memchr slashByte p
  let portStart := memchr colonByte p
  let hostEnd := pathStart.getD p.length
  if hostEnd = 0 ∨ portStart = some 0 then none
  else
    let explicit := portStart.filter (· < hostEnd)
    let host := p.take (explicit.getD hostEnd)
    let port ←
      match explicit with
      | some i => parsePortStrict ((p.take hostEnd).drop (i + 1))
      | none => some (defaultPort scheme)
    some (withPath scheme host port (pathStart.map fun i => p.drop i))

/-- The path with the query. -/
def target (info : UrlInfo) : Bytes :=
  info.query.elim info.path fun query => info.path ++ queryByte :: query

end UrlInfo

/-! ### Ports as numbers -/

theorem pushPortDigit_eq {ch : UInt8} (h : isdigit ch = true) (v : ℕ) :
    pushPortDigit v ch = HttpResponseParser.pushDigit 10 65535 v (ch.toNat - 0x30) := by
  have hlt := HttpResponseParser.digit_lt ch h
  rw [HttpResponseParser.pushDigit_eq hlt, pushPortDigit, if_pos h]
  dsimp only
  by_cases hle : v * 10 + (ch.toNat - 0x30) ≤ 65535
  · rw [if_pos hle, if_neg (by omega)]
  · rw [if_neg hle, if_pos (by omega)]

theorem isdigit_of_foldlM {s : Bytes} {acc v : ℕ} (h : s.foldlM pushPortDigit acc = some v) :
    ∀ c ∈ s, isdigit c = true := by
  induction s generalizing acc with
  | nil => simp
  | cons c s ih =>
      rw [List.foldlM_cons] at h
      obtain ⟨w, hw, h⟩ := Option.bind_eq_some_iff.mp h
      have hc : isdigit c = true := by
        by_contra hc
        simp [pushPortDigit, hc] at hw
      exact List.forall_mem_cons.mpr ⟨hc, ih h⟩

/-- A port is a decimal number from 1 to 65535. -/
theorem of_parsePortStrict {s : Bytes} {v : ℕ} (h : parsePortStrict s = some v) :
    (∀ c ∈ s, isdigit c = true) ∧ Radix.decimalValue s = v ∧ 0 < v := by
  rw [parsePortStrict] at h
  split_ifs at h with hs
  obtain ⟨w, hw, h⟩ := Option.bind_eq_some_iff.mp h
  split_ifs at h with hzero
  obtain rfl : w = v := by simpa using h
  have hdigits := isdigit_of_foldlM hw
  refine ⟨hdigits, ?_, Nat.pos_of_ne_zero hzero⟩
  have hds : ∀ d ∈ s.map (fun c => c.toNat - 0x30), d < 10 := by
    simpa using fun c hc => HttpResponseParser.digit_lt c (hdigits c hc)
  rw [HttpResponseParser.foldlM_eq_pushDigit fun c hc v => pushPortDigit_eq (hdigits c hc) v,
    HttpResponseParser.foldlM_pushDigit hds (Nat.zero_le 65535)] at hw
  split_ifs at hw
  exact Option.some.inj hw

/-- Cutting digits off a port changes it. -/
theorem parsePortStrict_append_ne {s t : Bytes} {v w : ℕ} (ht : t ≠ [])
    (hs : parsePortStrict s = some v) (hst : parsePortStrict (s ++ t) = some w) : v ≠ w := by
  obtain ⟨-, rfl, hpos⟩ := of_parsePortStrict hs
  obtain ⟨-, rfl, -⟩ := of_parsePortStrict hst
  have hlen : 0 < (t.map fun c => c.toNat - 0x30).length := by
    simpa using List.length_pos_iff.mpr ht
  have hpow : 10 ≤ 10 ^ (t.map fun c => c.toNat - 0x30).length := Nat.le_self_pow (by omega) 10
  rw [Radix.decimalValue, Radix.decimalValue, List.map_append, Radix.value_append]
  rw [Radix.decimalValue] at hpos
  have hmul := Nat.mul_le_mul_left (Radix.value 10 (s.map fun c => c.toNat - 0x30)) hpow
  omega

/-! ### The parts of a URL -/

theorem memchr_eq_none {c : UInt8} {s : Bytes} : memchr c s = none ↔ c ∉ s := by
  induction s with
  | nil => simp [memchr]
  | cons b s ih =>
      by_cases hb : b = c
      · simp [memchr, hb]
      · simp [memchr, hb, ih, Ne.symm hb]

/-- A text up to the first slash, and the rest, which is empty or starts with it. -/
theorem memchr_slash {a p : Bytes} (ha : slashByte ∉ a) (hp : ∀ c ∈ p.head?, c = slashByte) :
    memchr slashByte (a ++ p) = if p = [] then none else some a.length := by
  cases p with
  | nil => rwa [List.append_nil, if_pos rfl, memchr_eq_none]
  | cons c p =>
      obtain rfl : c = slashByte := hp c rfl
      rw [if_neg (by simp), memchr_append_cons ha]

theorem memchr_append_of_notMem {c : UInt8} {s : Bytes} (hs : c ∉ s) (t : Bytes) :
    memchr c (s ++ t) = (memchr c t).map (· + s.length) := by
  induction s with
  | nil => simp
  | cons b s ih =>
      rw [List.mem_cons, not_or] at hs
      rw [List.cons_append, memchr, if_neg (Ne.symm hs.1), ih hs.2, Option.map_map, List.length_cons]
      rfl

theorem strrchr_append_cons {c : UInt8} (h : Bytes) {q : Bytes} (hq : c ∉ q) :
    strrchr c (h ++ c :: q) = some h.length := by
  have hrev : (h ++ c :: q).reverse = q.reverse ++ c :: h.reverse := by simp
  rw [strrchr, hrev, memchr_append_cons (by simpa using hq)]
  simp

theorem strrchr_eq_none {c : UInt8} {s : Bytes} : strrchr c s = none ↔ c ∉ s := by
  rw [strrchr, Option.map_eq_none_iff, memchr_eq_none, List.mem_reverse]

/-- A text with a colon splits at its last one. -/
theorem exists_last_of_mem {c : UInt8} {s : Bytes} (h : c ∈ s) : ∃ a b, s = a ++ c :: b ∧ c ∉ b := by
  obtain ⟨b, a, hrev, hb⟩ := List.eq_append_cons_of_mem (List.mem_reverse.mpr h)
  refine ⟨a.reverse, b.reverse, ?_, by simpa using hb⟩
  rw [← List.reverse_reverse s, hrev]
  simp

/-- The map `parse_url` returns. -/
def infoMap (scheme : Bytes) (path : Option Bytes) (host : Bytes) (port : Option Bytes) :
    HashMap Bytes :=
  let m := (HashMap.new 30).put schemeKey scheme
  let m := (path.elim m fun path => m.put pathKey path).put hostKey host
  port.elim m fun port => m.put portKey port

theorem get_infoMap (scheme : Bytes) (path : Option Bytes) (host : Bytes) (port : Option Bytes) :
    (infoMap scheme path host port).get schemeKey = some scheme ∧
      (infoMap scheme path host port).get pathKey = path ∧
      (infoMap scheme path host port).get hostKey = some host ∧
      (infoMap scheme path host port).get portKey = port := by
  have hshort : schemeKey.length < maxKeyLen ∧ pathKey.length < maxKeyLen ∧
      hostKey.length < maxKeyLen ∧ portKey.length < maxKeyLen := by decide
  have hscheme := (HashMap.represents_new 30).put hshort.1 scheme
  have hpath : ∃ f, (path.elim ((HashMap.new 30).put schemeKey scheme) fun path =>
      ((HashMap.new 30).put schemeKey scheme).put pathKey path).Represents f ∧
      f.lookup schemeKey = some scheme ∧ f.lookup pathKey = path ∧ f.lookup portKey = none := by
    cases path with
    | none => exact ⟨_, hscheme, by simp, by rw [Finmap.lookup_insert_of_ne _ (by decide)]; rfl,
        by rw [Finmap.lookup_insert_of_ne _ (by decide)]; rfl⟩
    | some path =>
        refine ⟨_, hscheme.put hshort.2.1 path, ?_, by simp, ?_⟩
        · rw [Finmap.lookup_insert_of_ne _ (by decide), Finmap.lookup_insert]
        · rw [Finmap.lookup_insert_of_ne _ (by decide), Finmap.lookup_insert_of_ne _ (by decide)]
          rfl
  obtain ⟨f, hf, hfs, hfp, hfq⟩ := hpath
  have hhost := hf.put hshort.2.2.1 host
  have hmap : ∃ g, (infoMap scheme path host port).Represents g ∧
      g.lookup schemeKey = some scheme ∧ g.lookup pathKey = path ∧ g.lookup hostKey = some host ∧
      g.lookup portKey = port := by
    cases port with
    | none =>
        refine ⟨_, hhost, ?_, ?_, by simp, ?_⟩ <;>
          rwa [Finmap.lookup_insert_of_ne _ (by decide)]
    | some port =>
        refine ⟨_, hhost.put hshort.2.2.2 port, ?_, ?_, ?_, by simp⟩
        · rwa [Finmap.lookup_insert_of_ne _ (by decide), Finmap.lookup_insert_of_ne _ (by decide)]
        · rwa [Finmap.lookup_insert_of_ne _ (by decide), Finmap.lookup_insert_of_ne _ (by decide)]
        · rw [Finmap.lookup_insert_of_ne _ (by decide), Finmap.lookup_insert]
  obtain ⟨g, hg, hgs, hgp, hgh, hgq⟩ := hmap
  rw [hg.get hshort.1, hg.get hshort.2.1, hg.get hshort.2.2.1, hg.get hshort.2.2.2]
  exact ⟨hgs, hgp, hgh, hgq⟩

section Parts

variable {url a p : Bytes} {sep : ℕ}

/-- The parts of a URL: the scheme before the first `://`, the authority up to the first slash, and
the rest. -/
structure IsSplit (url : Bytes) (sep : ℕ) (a p : Bytes) : Prop where
  scheme_sep : strstr schemeSep url = some sep
  rest : url.drop (sep + 3) = a ++ p
  authority : slashByte ∉ a
  path : ∀ c ∈ p.head?, c = slashByte

/-- The path that is asked for. -/
def requestTarget (p : Bytes) : Bytes := if p = [] then [slashByte] else p

/-- The map of a URL: the authority, cut to 255 bytes, is split at its last colon. -/
theorem parseUrl_eq (h : IsSplit url sep a p) (hsep : sep ≤ 15) (hunix : url.take sep ≠ unixScheme) :
    (colonByte ∉ a.take 255 → parseUrl url =
      some (infoMap (url.take sep) (if p = [] then none else some p) (a.take 255) none)) ∧
    ∀ host q, a.take 255 = host ++ colonByte :: q → colonByte ∉ q → parseUrl url =
      some (infoMap (url.take sep) (if p = [] then none else some p) host (some q)) := by
  have hscheme : strncmpEq 16 (url.take sep) unixScheme = false := by
    rw [Bool.eq_false_iff, Ne, strncmpEq_iff_of_lt (by decide)]
    exact hunix
  have hpath : ∀ m : HashMap Bytes, (if p = [] then none else some a.length).elim m
      (fun i => m.put pathKey ((a ++ p).drop i)) =
        (if p = [] then none else some p).elim m fun path => m.put pathKey path := by
    intro m
    split_ifs
    · rfl
    · simp
  have hcut : (a ++ p).take (min ((if p = [] then none else some a.length).getD (a ++ p).length) 255) =
      a.take 255 := by
    have hend : (if p = [] then none else some a.length).getD (a ++ p).length = a.length := by
      split_ifs with hp
      · simp [hp]
      · rfl
    rw [hend, List.take_append_of_le_length (Nat.min_le_left _ _), List.take_eq_take_iff]
    omega
  have hparse : parseUrl url = (strrchr colonByte (a.take 255)).elim
      (some (infoMap (url.take sep) (if p = [] then none else some p) (a.take 255) none))
      fun i => some (infoMap (url.take sep) (if p = [] then none else some p)
        ((a.take 255).take i) (some ((a.take 255).drop (i + 1)))) := by
    rw [parseUrl, h.scheme_sep]
    simp only [Option.bind_eq_bind, Option.bind_some, h.rest, hscheme, Nat.min_eq_left hsep,
      memchr_slash h.authority h.path, hpath, hcut, Bool.false_eq_true, if_false]
    cases strrchr colonByte (a.take 255) with
    | none => rfl
    | some i => rfl
  constructor
  · intro hcolon
    rw [hparse, strrchr_eq_none.mpr hcolon]
    rfl
  · intro host q hsplit hq
    rw [hparse, hsplit, strrchr_append_cons host hq]
    simp

/-- What `HttpTransport_connect` takes from a URL. -/
theorem of_endpointOf (h : IsSplit url sep a p) (hsep : sep ≤ 15) (hunix : url.take sep ≠ unixScheme)
    {e : Endpoint} (he : endpointOf url = some e) :
    e.path = requestTarget p ∧
      ((colonByte ∉ a.take 255 ∧ e.host = a.take 255 ∧
          e.port = if strcasecmpEq (url.take sep) httpsScheme then 443 else 80) ∨
        ∃ host q, a.take 255 = host ++ colonByte :: q ∧ colonByte ∉ q ∧ e.host = host ∧
          parsePortStrict q = some e.port) := by
  have hpath : (if ((if p = [] then none else some p).getD []) = [] then [slashByte]
      else (if p = [] then none else some p).getD []) = requestTarget p := by
    rw [requestTarget]
    split_ifs <;> simp_all
  obtain ⟨hnone, hsome⟩ := parseUrl_eq h hsep hunix
  by_cases hcolon : colonByte ∈ a.take 255
  · obtain ⟨host, q, hsplit, hq⟩ := exists_last_of_mem hcolon
    obtain ⟨hgs, hgp, hgh, hgq⟩ :=
      get_infoMap (url.take sep) (if p = [] then none else some p) host (some q)
    rw [endpointOf, hsome host q hsplit hq] at he
    simp only [Option.bind_eq_bind, Option.bind_some, hgs, hgp, hgh, hgq, hpath] at he
    obtain ⟨port, hport, he⟩ := Option.bind_eq_some_iff.mp he
    obtain rfl := Option.some.inj he
    exact ⟨rfl, .inr ⟨host, q, hsplit, hq, rfl, hport⟩⟩
  · obtain ⟨hgs, hgp, hgh, hgq⟩ :=
      get_infoMap (url.take sep) (if p = [] then none else some p) (a.take 255) none
    rw [endpointOf, hnone hcolon] at he
    simp only [Option.bind_eq_bind, Option.bind_some, hgs, hgp, hgh, hgq, hpath] at he
    obtain rfl := Option.some.inj he
    exact ⟨rfl, .inl ⟨hcolon, rfl, rfl⟩⟩

namespace UrlInfo

/-- The parts of the last step, when the path is not empty. -/
theorem withPath_spec (scheme host : Bytes) (port : ℕ) (p : Bytes) :
    (withPath scheme host port (if p = [] then none else some p)).target = requestTarget p ∧
      (withPath scheme host port (if p = [] then none else some p)).host = host ∧
      (withPath scheme host port (if p = [] then none else some p)).port = port := by
  by_cases hp : p = []
  · subst hp
    exact ⟨rfl, rfl, rfl⟩
  · rw [if_neg hp, withPath, requestTarget, if_neg hp]
    cases hq : memchr queryByte p with
    | none => exact ⟨rfl, rfl, rfl⟩
    | some q => exact ⟨(memchr_eq_some hq).1.symm, rfl, rfl⟩

/-- What `UrlInfo_parse` takes from a URL: the authority is split at its first colon. -/
theorem of_parse (h : IsSplit url sep a p) {info : UrlInfo} (hinfo : parse url = some info) :
    info.target = requestTarget p ∧
      ((colonByte ∉ a ∧ info.host = a ∧ info.port = defaultPort (url.take sep)) ∨
        ∃ host q, a = host ++ colonByte :: q ∧ colonByte ∉ host ∧ info.host = host ∧
          parsePortStrict q = some info.port) := by
  have hend : (if p = [] then none else some a.length).getD (a ++ p).length = a.length := by
    split_ifs with hp
    · simp [hp]
    · rfl
  have hpath : (if p = [] then none else some a.length).map (fun i => (a ++ p).drop i) =
      if p = [] then none else some p := by
    split_ifs
    · rfl
    · simp
  rw [parse, h.scheme_sep] at hinfo
  simp only [Option.elim_some, h.rest, memchr_slash h.authority h.path, hend, hpath] at hinfo
  by_cases hempty : a.length = 0 ∨ memchr colonByte (a ++ p) = some 0
  · rw [if_pos hempty] at hinfo
    cases hinfo
  rw [if_neg hempty] at hinfo
  by_cases hcolon : colonByte ∈ a
  · obtain ⟨host, q, rfl, hhost⟩ := List.eq_append_cons_of_mem hcolon
    have hport : memchr colonByte (host ++ colonByte :: q ++ p) = some host.length := by
      rw [List.append_assoc, List.cons_append, memchr_append_cons hhost]
    have hexplicit : (some host.length).filter (· < (host ++ colonByte :: q).length) =
        some host.length := by simp
    have htake : (host ++ colonByte :: q ++ p).take (host ++ colonByte :: q).length =
        host ++ colonByte :: q := List.take_left
    have hdrop : (host ++ colonByte :: q).drop (host.length + 1) = q := by simp
    have hhosteq : (host ++ colonByte :: q ++ p).take host.length = host := by simp
    simp only [hport, hexplicit, htake, hdrop, Option.getD_some, hhosteq] at hinfo
    obtain ⟨port, hparse, hinfo⟩ := Option.bind_eq_some_iff.mp hinfo
    obtain rfl := Option.some.inj hinfo
    obtain ⟨htarget, hh, hp⟩ := withPath_spec (url.take sep) host port p
    exact ⟨htarget, .inr ⟨host, q, rfl, hhost, hh, by rwa [hp]⟩⟩
  · have hexplicit : (memchr colonByte (a ++ p)).filter (· < a.length) = none := by
      rw [memchr_append_of_notMem hcolon]
      cases memchr colonByte p <;> simp
    simp only [hexplicit, Option.getD_none, List.take_left] at hinfo
    obtain rfl := Option.some.inj hinfo
    obtain ⟨htarget, hh, hp⟩ := withPath_spec (url.take sep) a (defaultPort (url.take sep)) p
    exact ⟨htarget, .inl ⟨hcolon, hh, hp⟩⟩

end UrlInfo

/-- Every URL with a scheme has its parts. -/
theorem exists_isSplit (hsep : strstr schemeSep url = some sep) :
    ∃ p, IsSplit url sep ((url.drop (sep + 3)).takeWhile (· ≠ slashByte)) p := by
  refine ⟨(url.drop (sep + 3)).dropWhile (· ≠ slashByte), hsep, ?_, ?_, ?_⟩
  · exact (List.takeWhile_append_dropWhile).symm
  · intro hmem
    simpa using List.mem_takeWhile_imp hmem
  · intro c hc
    have hhead := List.head?_dropWhile_not (· ≠ slashByte) (url.drop (sep + 3))
    rw [Option.mem_def.mp hc] at hhead
    simpa using hhead

end Parts

/-! ### Agreement -/

/-- The scheme of a URL. -/
def urlScheme (url : Bytes) : Bytes := url.take ((strstr schemeSep url).getD 0)

/-- The authority of a URL. -/
def urlAuthority (url : Bytes) : Bytes :=
  (url.drop ((strstr schemeSep url).getD 0 + 3)).takeWhile (· ≠ slashByte)

/-- The default port of `HttpTransport_connect`. -/
def transportDefaultPort (scheme : Bytes) : ℕ := if strcasecmpEq scheme httpsScheme then 443 else 80

/-- The schemes and authorities on which the parsers agree. The authority fits the buffer, and a port
is given or the scheme is not `https` in other letters; or the host fills the buffer and the port that
is cut off is the default port. -/
def AgreeableParts (scheme a : Bytes) : Prop :=
  (a.length ≤ 255 ∧ (colonByte ∈ a ∨ scheme = httpsScheme ∨ strcasecmpEq scheme httpsScheme = false)) ∨
  ((a.takeWhile (· ≠ colonByte)).length = 255 ∧
    parsePortStrict (a.drop 256) = some (transportDefaultPort scheme))

instance (scheme a : Bytes) : Decidable (AgreeableParts scheme a) :=
  inferInstanceAs (Decidable (_ ∨ _))

/-- The URLs on which the parsers agree. -/
def Agreeable (url : Bytes) : Prop := AgreeableParts (urlScheme url) (urlAuthority url)

instance (url : Bytes) : Decidable (Agreeable url) :=
  inferInstanceAs (Decidable (AgreeableParts _ _))

/-- The last colon of a text splits it in one way. -/
theorem last_colon_unique {c : UInt8} {s a b a' b' : Bytes} (h : s = a ++ c :: b) (hb : c ∉ b)
    (h' : s = a' ++ c :: b') (hb' : c ∉ b') : a = a' ∧ b = b' := by
  have hlen : a.length = a'.length := by
    have hpos := strrchr_append_cons a hb
    rw [← h, h', strrchr_append_cons a' hb'] at hpos
    exact (Option.some.inj hpos).symm
  obtain ⟨ha, hcons⟩ := List.append_inj (h.symm.trans h') hlen
  exact ⟨ha, (List.cons.inj hcons).2⟩

/-- The defaults agree but for `https` in other letters. -/
theorem defaultPort_eq_iff {scheme : Bytes} (h : strcasecmpEq scheme httpScheme = true ∨
    strcasecmpEq scheme httpsScheme = true) :
    UrlInfo.defaultPort scheme = transportDefaultPort scheme ↔
      scheme = httpsScheme ∨ strcasecmpEq scheme httpsScheme = false := by
  have hother : scheme ≠ ascii ['w', 's', 's'] ∧ scheme ≠ ascii ['s', 's', 'l'] := by
    constructor <;> rintro rfl <;> exact absurd h (by decide)
  by_cases heq : scheme = httpsScheme
  · subst heq
    exact ⟨fun _ => .inl rfl, fun _ => by decide⟩
  · rw [UrlInfo.defaultPort, if_neg (by simp [heq, hother]), transportDefaultPort]
    cases strcasecmpEq scheme httpsScheme <;> simp [heq]

/-- A scheme `http` or `https` fits its buffer and is not `unix`. -/
theorem scheme_short {scheme : Bytes} (h : strcasecmpEq scheme httpScheme = true ∨
    strcasecmpEq scheme httpsScheme = true) : scheme.length ≤ 15 ∧ scheme ≠ unixScheme := by
  constructor
  · rcases h with h | h <;>
    · have hlen := congrArg List.length (of_decide_eq_true h)
      rw [List.length_map, List.length_map] at hlen
      rw [hlen]
      decide
  · rintro rfl
    exact absurd h (by decide)

theorem take_eq_self_iff {a : Bytes} {n : ℕ} : a = a.take n ↔ a.length ≤ n := by
  rw [eq_comm, List.take_eq_self_iff]

theorem takeWhile_colon {host : Bytes} (h : colonByte ∉ host) {q : Bytes}
    (hq : ∀ c ∈ q.head?, c = colonByte) : (host ++ q).takeWhile (· ≠ colonByte) = host := by
  refine takeWhile_append (fun c hc => ?_) fun c hc => by simp [hq c hc]
  have hne : c ≠ colonByte := fun hcolon => h (hcolon ▸ hc)
  simpa using hne

/-- Agreement without a port. -/
theorem agreeableParts_of_notMem {scheme a : Bytes} (hscheme : strcasecmpEq scheme httpScheme = true ∨
    strcasecmpEq scheme httpsScheme = true) (hcolon : colonByte ∉ a) :
    (a = a.take 255 ∧ UrlInfo.defaultPort scheme = transportDefaultPort scheme) ↔
      AgreeableParts scheme a := by
  rw [take_eq_self_iff, defaultPort_eq_iff hscheme, AgreeableParts]
  have hno : ¬((a.takeWhile (· ≠ colonByte)).length = 255 ∧
      parsePortStrict (a.drop 256) = some (transportDefaultPort scheme)) := by
    rintro ⟨hlen, hport⟩
    have hall := takeWhile_colon hcolon (by simp : ∀ c ∈ ([] : Bytes).head?, c = colonByte)
    rw [List.append_nil] at hall
    rw [hall] at hlen
    rw [List.drop_of_length_le (by omega)] at hport
    cases hport
  rw [or_iff_left hno]
  simp [hcolon]

/-- Agreement with a port behind a host that fills the buffer. -/
theorem agreeableParts_of_long {scheme host q : Bytes} (hcolon : colonByte ∉ host)
    (hlong : 255 ≤ host.length) {port : ℕ} (hport : parsePortStrict q = some port) :
    (host = host.take 255 ∧ port = transportDefaultPort scheme) ↔
      AgreeableParts scheme (host ++ colonByte :: q) := by
  have hlen : ¬(host ++ colonByte :: q).length ≤ 255 := by simp; omega
  rw [take_eq_self_iff, AgreeableParts, takeWhile_colon hcolon (by simp)]
  simp only [hlen, false_and, false_or]
  constructor
  · rintro ⟨hle, rfl⟩
    have h255 : host.length = 255 := by omega
    refine ⟨h255, ?_⟩
    rwa [show 256 = host.length + 1 by omega, ← List.drop_drop, List.drop_left, List.drop_one,
      List.tail_cons]
  · rintro ⟨h255, hdefault⟩
    rw [show 256 = host.length + 1 by omega, ← List.drop_drop, List.drop_left, List.drop_one,
      List.tail_cons, hport] at hdefault
    exact ⟨h255.le, Option.some.inj hdefault⟩

/-- Agreement with a port behind a shorter host. -/
theorem agreeableParts_of_short {scheme host q : Bytes} (hcolon : colonByte ∉ host)
    (hshort : host.length < 255) {port port' : ℕ} (hport : parsePortStrict q = some port)
    (hport' : parsePortStrict (q.take (254 - host.length)) = some port') :
    port = port' ↔ AgreeableParts scheme (host ++ colonByte :: q) := by
  have hmem : colonByte ∈ host ++ colonByte :: q := by simp
  rw [AgreeableParts, takeWhile_colon hcolon (by simp)]
  simp only [hmem, true_or, and_true, hshort.ne, false_and, or_false, List.length_append,
    List.length_cons]
  by_cases hle : q.length ≤ 254 - host.length
  · rw [List.take_of_length_le hle, hport] at hport'
    exact ⟨fun _ => by omega, fun _ => Option.some.inj hport'⟩
  · have hne : q.drop (254 - host.length) ≠ [] := by simpa using hle
    rw [← List.take_append_drop (254 - host.length) q] at hport
    have hdiff := parsePortStrict_append_ne hne hport' hport
    exact ⟨fun heq => absurd heq.symm hdiff, fun hlen => absurd hlen (by omega)⟩

/-- **Agreement of the URL parsers.** On a URL with the scheme `http` or `https`, in any letters, that
both parsers accept, they yield the same host, port and path with query exactly when the URL is
agreeable. -/
theorem url_parsers_agree_iff {url : Bytes} (hsome : (strstr schemeSep url).isSome = true)
    (hscheme : strcasecmpEq (urlScheme url) httpScheme = true ∨
      strcasecmpEq (urlScheme url) httpsScheme = true)
    {info : UrlInfo} (hinfo : UrlInfo.parse url = some info) {e : Endpoint}
    (he : endpointOf url = some e) :
    (info.host = e.host ∧ info.port = e.port ∧ info.target = e.path) ↔ Agreeable url := by
  obtain ⟨sep, hsep⟩ := Option.isSome_iff_exists.mp hsome
  obtain ⟨p, hsplit⟩ := exists_isSplit hsep
  have hscheme_eq : urlScheme url = url.take sep := by rw [urlScheme, hsep]; rfl
  have hauthority : urlAuthority url = (url.drop (sep + 3)).takeWhile (· ≠ slashByte) := by
    rw [urlAuthority, hsep]
    rfl
  rw [Agreeable, hauthority, hscheme_eq]
  rw [hscheme_eq] at hscheme
  generalize (url.drop (sep + 3)).takeWhile (· ≠ slashByte) = a at hsplit
  obtain ⟨hshort, hunix⟩ := scheme_short hscheme
  have hsep15 : sep ≤ 15 := by
    have hle := strstr_add_length_le (by decide) hsep
    rw [List.length_take] at hshort
    omega
  obtain ⟨htarget, hfirst⟩ := UrlInfo.of_parse hsplit hinfo
  obtain ⟨hpath, hlast⟩ := of_endpointOf hsplit hsep15 hunix he
  rw [← transportDefaultPort] at hlast
  simp only [htarget, hpath, and_true]
  obtain ⟨hcolon, hhost, hport⟩ | ⟨host, q, rfl, hcolon, hhost, hport⟩ := hfirst
  · have hcut : colonByte ∉ a.take 255 := fun h => hcolon (List.mem_of_mem_take h)
    obtain ⟨-, hhost', hport'⟩ | ⟨host, q, hq, -⟩ := hlast
    · rw [hhost, hhost', hport, hport', agreeableParts_of_notMem hscheme hcolon]
    · exact absurd (hq ▸ by simp) hcut
  · have hdigits := (of_parsePortStrict hport).1
    have hq : colonByte ∉ q := fun h => absurd (hdigits _ h) (by decide)
    rcases le_or_gt 255 host.length with hlong | hless
    · have hcut : (host ++ colonByte :: q).take 255 = host.take 255 :=
        List.take_append_of_le_length hlong
      rw [hcut] at hlast
      obtain ⟨-, hhost', hport'⟩ | ⟨host', q', hq', -⟩ := hlast
      · rw [hhost, hhost', hport', agreeableParts_of_long hcolon hlong hport]
      · exact absurd (List.mem_of_mem_take (hq' ▸ by simp : colonByte ∈ host.take 255)) hcolon
    · have hcut : (host ++ colonByte :: q).take 255 =
          host ++ colonByte :: q.take (254 - host.length) := by
        rw [List.take_append, List.take_of_length_le hless.le,
          show 255 - host.length = (254 - host.length) + 1 by omega, List.take_succ_cons]
      rw [hcut] at hlast
      obtain ⟨hno, -⟩ | ⟨host', q', hq', hcolon', hhost', hport'⟩ := hlast
      · exact absurd (by simp) hno
      · obtain ⟨rfl, rfl⟩ := last_colon_unique rfl (fun h => hq (List.mem_of_mem_take h)) hq' hcolon'
        rw [hhost, hhost', ← agreeableParts_of_short hcolon hless hport hport']
        simp

/-- `https://ab.c:44/x?y`. -/
def sampleUrl : Bytes :=
  ascii ['h', 't', 't', 'p', 's', ':', '/', '/', 'a', 'b', '.', 'c', ':', '4', '4', '/', 'x', '?', 'y']

theorem url_parsers_agree_sample : ∃ info e, UrlInfo.parse sampleUrl = some info ∧
    endpointOf sampleUrl = some e ∧ info.host = e.host ∧ info.port = e.port ∧
      info.target = e.path :=
  ⟨_, _, rfl, rfl, (@url_parsers_agree_iff sampleUrl (by decide +kernel) (by decide +kernel) _ rfl
    _ rfl).mpr (by decide +kernel)⟩

/-- `HTTPS://a` goes to port 80 or 443, as the parser has it. -/
theorem url_parsers_differ : ∃ info e,
    UrlInfo.parse (ascii ['H', 'T', 'T', 'P', 'S', ':', '/', '/', 'a']) = some info ∧
      endpointOf (ascii ['H', 'T', 'T', 'P', 'S', ':', '/', '/', 'a']) = some e ∧
      info.port = 80 ∧ e.port = 443 :=
  ⟨_, _, rfl, rfl, rfl, rfl⟩
