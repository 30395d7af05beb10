import LibCore.Framing
import LibCore.HttpFraming

/-!
# Segmentation of Requests

Whether a connection in HTTP mode treats a stream the same way however it arrives. The server
is a reader in the sense of `LibCore.Framing`: header blocks end with CRLFCRLF, the header
buffer has 8192 bytes, a chunk has at most 4095, and the buffer is looked at only when a chunk
has arrived. Every run of the server is a run of this reader, so the streams on which the
server does the same thing in every segmentation are the safe streams of the reader.

There are others. A pipelined request that is already complete in `header_buf` when the one
before it has been answered waits for another chunk, and a header block longer than 4097 bytes
may be answered with 431 when the bytes behind it arrive in the same chunk.

## Main definitions

* `Handlers.HttpOnly`: handlers that neither upgrade nor close the connection.
* `httpProtocol`: the server as a reader.
* `SameOutcome`: the stream has one outcome in all segmentations.

## Main results

* `outcome_serve`: every run of the server is a run of the reader.
* `sameOutcome_iff_safe`: the streams with one outcome are the safe ones.
-/

open CString Framing

namespace HttpServer

/-! ### The server as a reader -/

/-- Header blocks of HTTP requests. -/
def httpFormat : Format UInt8 ParsedRequest where
  blockLen buf := (strstr crlfcrlf buf).map (· + 4)
  parse block := (parseBlock block).toOption
  bodyLen p := p.req.bodyLen
  blockLen_pos h := by
    obtain ⟨i, -, rfl⟩ := Option.map_eq_some_iff.mp h
    omega
  blockLen_le h := by
    obtain ⟨i, hi, rfl⟩ := Option.map_eq_some_iff.mp h
    exact block_le_length hi
  blockLen_append t h := by
    obtain ⟨i, hi, rfl⟩ := Option.map_eq_some_iff.mp h
    rw [strstr_append crlfcrlf_ne_nil hi t]
    rfl
  blockLen_take h := by
    obtain ⟨i, hi, rfl⟩ := Option.map_eq_some_iff.mp h
    rw [strstr_block hi]
    rfl

variable {E : Type}

/-- The request of a header block with its body. -/
def ParsedRequest.withBody (p : ParsedRequest) (body : Bytes) : Request :=
  { p.req with body := body }

/-- The server as a reader: it refuses requests while it is shutting down, and dispatches them
otherwise. -/
def httpProtocol (h : Handlers E) : Protocol UInt8 ParsedRequest E Request where
  toFormat := httpFormat
  limit := headerBufSize
  deliver e p body :=
    if h.shuttingDown e then none else some ((h.dispatch e (p.withBody body)).1, p.keepAlive)
  message p body := p.withBody body

/-- Handlers that neither upgrade nor close the connection. -/
structure Handlers.HttpOnly (h : Handlers E) : Prop where
  status_ne : ∀ e req, (h.dispatch e req).2.1 ≠ 101
  effect_none : ∀ e req, (h.dispatch e req).2.2 = .none

/-- The phase of a connection. -/
def phaseOf (c : Conn) : Phase UInt8 ParsedRequest :=
  if c.leaving then .closed
  else
    match c.state with
    | .readHeader => .header c.headerBuf
    | .readBody req => .body ⟨{ req with body := [] }, c.keepAlive⟩ req.body

/-- The reader that a connection is. -/
def readerOf (w : World E) : Reader UInt8 ParsedRequest E Request :=
  ⟨w.env, phaseOf w.conn, dispatched w.log⟩

theorem phaseOf_header {c : Conn} (hopen : c.leaving = false) (hstate : c.state = .readHeader) :
    phaseOf c = .header c.headerBuf := by
  simp [phaseOf, hopen, hstate]

theorem phaseOf_body {c : Conn} {req : Request} (hopen : c.leaving = false)
    (hstate : c.state = .readBody req) :
    phaseOf c = .body ⟨{ req with body := [] }, c.keepAlive⟩ req.body := by
  simp [phaseOf, hopen, hstate]

/-- The results of `recv` for a stream in chunks: no errors, no end, and no more than 4095
bytes at once. -/
def Chunked (input : List Recv) : Prop :=
  ∀ r ∈ input, r ≠ .error ∧ ∀ d, r = .data d → d ≠ [] ∧ d.length ≤ 4095

/-- The chunks among them. -/
def chunksOf (input : List Recv) : List Bytes :=
  input.filterMap fun
    | .data d => some d
    | _ => none

/-- An open connection in HTTP mode. -/
structure HttpOpen (w : World E) : Prop where
  mode : w.conn.mode = .http
  leaving : w.conn.leaving = false
  body : ∀ req, w.conn.state = .readBody req →
    w.conn.headerBuf = [] ∧ req.body.length < req.bodyLen

/-- What a step of the server is for the reader `r`: the connection is open and is `r`, or it
has been closed, and so has `r`, with the same requests dispatched. -/
def Simulates (r : Reader UInt8 ParsedRequest E Request) (res : Flow × World E) : Prop :=
  (HttpOpen res.2 ∧ readerOf res.2 = r) ∨
    (res.1 = .leave ∧ res.2.conn.leaving = true ∧ r.outcome = (dispatched res.2.log, true))

variable {h : Handlers E}

/-! ### Steps -/

/-- Going on with an open connection. -/
theorem simulates_open {r : Reader UInt8 ParsedRequest E Request} {flow : Flow} {w : World E}
    (hw : HttpOpen w) (henv : r.env = w.env) (hphase : phaseOf w.conn = r.phase)
    (hout : r.out = dispatched w.log) : Simulates r (flow, w) := by
  refine .inl ⟨hw, ?_⟩
  rw [readerOf, hphase, ← henv, ← hout]

/-- Closing the connection. -/
theorem simulates_shutdown {r : Reader UInt8 ParsedRequest E Request} {w : World E}
    (hr : r.phase = .closed) (hout : r.out = dispatched w.log) :
    Simulates r (.leave, connShutdown h w) := by
  refine .inr ⟨rfl, leaving_of_isShut (isShut_connShutdown h w), ?_⟩
  rw [(keeps_connShutdown h w).dispatched, Reader.outcome, hr, hout]
  rfl

/-- Rejecting a request. -/
theorem simulates_reject {r : Reader UInt8 ParsedRequest E Request} {w : World E}
    (hr : r.phase = .closed) (hout : r.out = dispatched w.log) (reply : Reply) :
    Simulates r (.leave, reject h reply w) := by
  refine simulates_shutdown hr ?_
  rw [hout]
  simp [World.record, dispatched]

/-- A complete request. -/
theorem simulates_finishRequest (hh : h.HttpOnly) {p : ParsedRequest} {body : Bytes}
    {w : World E} (hmode : w.conn.mode = .http) (hopen : w.conn.leaving = false)
    (hstate : w.conn.state = .readHeader) (hkeep : w.conn.keepAlive = p.keepAlive)
    {r : Reader UInt8 ParsedRequest E Request} (henv : r.env = w.env)
    (hout : r.out = dispatched w.log) :
    Simulates (finish (httpProtocol h) r p body w.conn.headerBuf)
      (finishRequest h (p.withBody body) w) := by
  have hshut : w.conn.shutdownDone = false := by
    simp only [Conn.leaving, Bool.or_eq_false_iff] at hopen
    exact hopen.1.2
  have hdeliver : (httpProtocol h).deliver r.env p body = if h.shuttingDown w.env then none
      else some ((h.dispatch w.env (p.withBody body)).1, p.keepAlive) := by
    rw [henv]
    rfl
  simp only [finishRequest, finish, hdeliver, hshut, Bool.not_false, Bool.true_and]
  cases hdown : h.shuttingDown w.env with
  | true => exact simulates_reject (r := { r with phase := .closed }) rfl hout _
  | false =>
      have hdispatch : dispatchRequest h (p.withBody body) w =
          ((h.dispatch w.env (p.withBody body)).2.1,
            { w with env := (h.dispatch w.env (p.withBody body)).1 }.record
              (.dispatched (p.withBody body))) := by
        simp [dispatchRequest, hh.effect_none, applyEffect]
      have hlog : dispatched (w.log ++ [.dispatched (p.withBody body)]) =
          dispatched w.log ++ [p.withBody body] := by
        simp [dispatched]
      simp only [Bool.false_eq_true, if_false, hdispatch, hh.status_ne, hout, World.record, hkeep]
      cases hkeep' : p.keepAlive with
      | false => exact simulates_shutdown rfl hlog.symm
      | true =>
          have hopen' : HttpOpen { w with
              env := (h.dispatch w.env (p.withBody body)).1
              log := w.log ++ [.dispatched (p.withBody body)] } :=
            ⟨hmode, hopen, by simp [hstate]⟩
          have hphase := phaseOf_header hopen hstate
          simp only [Bool.not_true, Bool.false_eq_true, if_false, if_true]
          split <;> exact simulates_open hopen' rfl hphase hlog.symm

/-- A request whose header block has been read. -/
theorem simulates_startBody (hh : h.HttpOnly) {p : ParsedRequest} (hbody : p.req.body = [])
    {buf buf' : Bytes} {headerEnd : ℕ} (hlen : buf'.length = buf.length)
    (hdrop : buf'.drop (headerEnd + 4) = buf.drop (headerEnd + 4)) {w : World E}
    (hmode : w.conn.mode = .http) (hopen : w.conn.leaving = false)
    (hstate : w.conn.state = .readHeader) {r : Reader UInt8 ParsedRequest E Request}
    (henv : r.env = w.env) (hout : r.out = dispatched w.log) :
    Simulates (Framing.startBody (httpProtocol h) r p (buf.drop (headerEnd + 4)))
      (startBody h buf' headerEnd p w) := by
  have htail : ∀ k, buf'.drop (headerEnd + 4 + k) = (buf.drop (headerEnd + 4)).drop k := by
    intro k
    rw [← List.drop_drop, hdrop]
  have hrest : buf'.length - (headerEnd + 4) = (buf.drop (headerEnd + 4)).length := by
    rw [hlen, List.length_drop]
  have hbl : (httpProtocol h).bodyLen p = p.req.bodyLen := rfl
  simp only [startBody, Framing.startBody, hbl, hdrop, htail, hrest]
  generalize buf.drop (headerEnd + 4) = tail
  by_cases hpos : 0 < p.req.bodyLen
  · simp only [hpos, if_true]
    by_cases hlt : tail.length < p.req.bodyLen
    · have hall : min tail.length p.req.bodyLen = tail.length := by omega
      simp only [hlt, hall, if_true, List.take_length, List.drop_length]
      refine simulates_open ⟨hmode, hopen, ?_⟩ henv ((phaseOf_body (by exact hopen) rfl).trans ?_)
        hout
      · rintro req ⟨⟩
        exact ⟨rfl, hlt⟩
      · simp only [World.setConn, ← hbody]
    · have hall : min tail.length p.req.bodyLen = p.req.bodyLen := by omega
      simp only [hlt, hall, if_false, lt_irrefl]
      exact simulates_finishRequest (w := w.setConn { w.conn with
        keepAlive := p.keepAlive, headerBuf := tail.drop p.req.bodyLen }) hh hmode hopen hstate
        rfl henv hout
  · have hzero : p.req.bodyLen = 0 := by omega
    have hreq : p.req = p.withBody [] := by
      rw [ParsedRequest.withBody, ← hbody]
    simp only [hzero, lt_irrefl, if_false, Nat.not_lt_zero, List.take_zero, List.drop_zero]
    rw [hreq]
    exact simulates_finishRequest (w := w.setConn { w.conn with
      keepAlive := p.keepAlive, headerBuf := tail }) hh hmode hopen hstate rfl henv hout

/-- Bytes in the header buffer. -/
theorem simulates_headerBytes (hh : h.HttpOnly) {w : World E} (hw : HttpOpen w)
    (hstate : w.conn.state = .readHeader) (d : Bytes) :
    Simulates (feed (httpProtocol h) (readerOf w) d) (headerBytes h d w) := by
  have hphase : (readerOf w).phase = .header w.conn.headerBuf :=
    phaseOf_header hw.leaving hstate
  have hlimit : (httpProtocol h).limit = headerBufSize := rfl
  simp only [feed, hphase, feedHeader, headerBytes, hlimit]
  by_cases hfull : headerBufSize ≤ w.conn.headerBuf.length + d.length
  · simp only [ge_iff_le, hfull, if_true]
    exact simulates_reject rfl rfl _
  · simp only [ge_iff_le, hfull, if_false]
    generalize w.conn.headerBuf ++ d = buf
    have hblock : (httpProtocol h).blockLen buf = (strstr crlfcrlf buf).map (· + 4) := rfl
    rw [hblock]
    cases hend : strstr crlfcrlf buf with
    | none =>
        refine simulates_open ⟨hw.mode, hw.leaving, ?_⟩ rfl (phaseOf_header hw.leaving hstate) rfl
        intro req hreq
        rw [World.setConn, hstate] at hreq
        cases hreq
    | some headerEnd =>
        simp only [Option.map_some, recognise]
        rcases parseRequest_eq_parseBlock hend with
          ⟨reply, hblock, hres⟩ | ⟨p, buf', hblock, hbody, hlen, hdrop, hres⟩
        · have hparse : (httpProtocol h).parse (buf.take (headerEnd + 4)) = none :=
            congrArg Except.toOption hblock
          simp only [hparse, hres]
          exact simulates_reject rfl rfl _
        · have hparse : (httpProtocol h).parse (buf.take (headerEnd + 4)) = some p :=
            congrArg Except.toOption hblock
          simp only [hparse, hres]
          exact simulates_startBody hh hbody hlen hdrop hw.mode hw.leaving hstate rfl rfl

/-- Bytes of a body, not more than it needs. -/
theorem simulates_bodyBytes (hh : h.HttpOnly) {w : World E} (hw : HttpOpen w) {req : Request}
    (hstate : w.conn.state = .readBody req) {d : Bytes}
    (hd : d.length ≤ req.bodyLen - req.body.length) :
    Simulates (feed (httpProtocol h) (readerOf w) d) (bodyBytes h req d w) := by
  have hphase : (readerOf w).phase = .body ⟨{ req with body := [] }, w.conn.keepAlive⟩ req.body :=
    phaseOf_body hw.leaving hstate
  obtain ⟨hbuf, hlt⟩ := hw.body req hstate
  have hbl : (httpProtocol h).bodyLen ⟨{ req with body := [] }, w.conn.keepAlive⟩ =
      req.bodyLen := rfl
  simp only [feed, hphase, bodyBytes, hbl, List.length_append]
  by_cases hmore : d.length < req.bodyLen - req.body.length
  · rw [if_pos hmore, if_pos (by omega)]
    refine simulates_open ⟨hw.mode, hw.leaving, ?_⟩ rfl ?_ rfl
    · have hlt' : (req.body ++ d).length < req.bodyLen := by
        rw [List.length_append]
        omega
      rintro req' ⟨⟩
      exact ⟨hbuf, hlt'⟩
    · exact phaseOf_body (c := { w.conn with state := .readBody { req with body := req.body ++ d } })
        hw.leaving rfl
  · rw [if_neg hmore, if_neg (by omega), List.take_of_length_le hd, List.drop_of_length_le hd,
      feedNext_finish, if_pos rfl, ← hbuf]
    exact simulates_finishRequest (w := w.setConn { w.conn with state := .readHeader }) hh hw.mode
      hw.leaving rfl rfl rfl rfl

/-! ### Runs -/

/-- What is to be seen of a connection in the end, by the reader. -/
def future (h : Handlers E) (w : World E) : List Request × Bool :=
  (feedAll (httpProtocol h) (readerOf w) (chunksOf w.input)).outcome

/-- A state of a run whose outcome will be `res`: open, or closed with the outcome. -/
def WillBe (h : Handlers E) (res : List Request × Bool) (flow : Flow) (w : World E) : Prop :=
  (HttpOpen w ∧ Chunked w.input ∧ future h w = res) ∨
    (flow = .leave ∧ w.conn.leaving = true ∧ res = (dispatched w.log, true))

theorem Simulates.willBe {r : Reader UInt8 ParsedRequest E Request} {res : Flow × World E}
    (hsim : Simulates r res) (hin : Chunked res.2.input) :
    WillBe h (feedAll (httpProtocol h) r (chunksOf res.2.input)).outcome res.1 res.2 := by
  rcases hsim with ⟨hopen, rfl⟩ | ⟨hflow, hleave, hout⟩
  · exact .inl ⟨hopen, hin, rfl⟩
  · refine .inr ⟨hflow, hleave, ?_⟩
    have hclosed : r.phase = .closed := by
      have := congrArg Prod.snd hout
      simp only [Reader.outcome] at this
      cases hr : r.phase with
      | closed => rfl
      | header buf => rw [hr] at this; cases this
      | body head got => rw [hr] at this; cases this
    rw [feedAll_closed _ hclosed, hout]

/-- A round that has received something. -/
theorem httpPass_data {max : ℕ} {bytes : Bytes → World E → Flow × World E} {w : World E}
    {d : Bytes} {rest : List Recv} (hr : recv max w.input = (.data d, rest)) (hd : d ≠ []) :
    httpPass h max bytes w = bytes d { w with input := rest } := by
  cases d with
  | nil => exact absurd rfl hd
  | cons b d => simp only [httpPass, hr]

theorem pass_readHeader {w : World E} (hw : HttpOpen w) (hstate : w.conn.state = .readHeader) :
    pass h w = httpPass h 4095 (headerBytes h) w := by
  simp only [pass, hw.mode, hstate]

theorem pass_readBody {w : World E} (hw : HttpOpen w) {req : Request}
    (hstate : w.conn.state = .readBody req) :
    pass h w = httpPass h (min (req.bodyLen - req.body.length) 4096) (bodyBytes h req) w := by
  simp only [pass, hw.mode, hstate]

/-- A round on an open connection in HTTP mode: one of the two readers, with some room. -/
theorem exists_httpPass {w : World E} (hw : HttpOpen w) :
    ∃ max bytes, pass h w = httpPass h max bytes w := by
  cases hstate : w.conn.state with
  | readHeader => exact ⟨_, _, pass_readHeader hw hstate⟩
  | readBody req => exact ⟨_, _, pass_readBody hw hstate⟩

/-- A round with a chunk to receive. -/
theorem willBe_pass_data (hh : h.HttpOnly) {w : World E} (hw : HttpOpen w) {d : Bytes}
    {rest : List Recv} (hinput : w.input = .data d :: rest) (hd : d ≠ []) (hlen : d.length ≤ 4095)
    (hrest : Chunked rest) : WillBe h (future h w) (pass h w).1 (pass h w).2 := by
  have hpos := List.length_pos_iff.mpr hd
  have hfuture : future h w = (feedAll (httpProtocol h)
      (feed (httpProtocol h) (readerOf w) d) (chunksOf rest)).outcome := by
    rw [future, hinput]
    rfl
  have hw' : ∀ rest, HttpOpen { w with input := rest } := by
    intro rest
    exact ⟨hw.mode, hw.leaving, hw.body⟩
  cases hstate : w.conn.state with
  | readHeader =>
      have hr : recv 4095 w.input = (.data d, rest) := by
        rw [hinput, recv, if_pos hlen]
      have hin := input_headerBytes h d { w with input := rest }
      have hwill := (simulates_headerBytes hh (hw' rest) hstate d).willBe (h := h) (by rwa [hin])
      rw [hin] at hwill
      rw [hfuture, pass_readHeader hw hstate, httpPass_data hr hd]
      exact hwill
  | readBody req =>
      obtain ⟨hbuf, hlt⟩ := hw.body req hstate
      generalize hneed : req.bodyLen - req.body.length = need at *
      by_cases hle : d.length ≤ need
      · have hr : recv (min need 4096) w.input = (.data d, rest) := by
          rw [hinput, recv, if_pos (by omega)]
        have hin := input_bodyBytes h req d { w with input := rest }
        have hwill := (simulates_bodyBytes hh (hw' rest) hstate (hle.trans hneed.ge)).willBe
          (h := h) (by rwa [hin])
        rw [hin] at hwill
        rw [hfuture, pass_readBody hw hstate, hneed, httpPass_data hr hd]
        exact hwill
      · -- the chunk ends behind the body: `recv` returns it in two pieces
        have hmax : min need 4096 = need := by omega
        have hr : recv (min need 4096) w.input =
            (.data (d.take need), .data (d.drop need) :: rest) := by
          rw [hinput, recv, if_neg (by omega), hmax]
        have htake : (d.take need).length = need := List.length_take_of_le (by omega)
        have hdrop : (d.drop need).length = d.length - need := List.length_drop
        have hrest' : Chunked (.data (d.drop need) :: rest) := by
          rintro r (- | ⟨-, hr⟩)
          · refine ⟨by simp, ?_⟩
            rintro _ ⟨⟩
            exact ⟨by rw [← List.length_pos_iff]; omega, by omega⟩
          · exact hrest r hr
        have hin := input_bodyBytes h req (d.take need)
          { w with input := .data (d.drop need) :: rest }
        have hwill := (simulates_bodyBytes hh (hw' (.data (d.drop need) :: rest)) hstate
          (htake.le.trans hneed.ge)).willBe (h := h) (by rwa [hin])
        rw [hin] at hwill
        have hphase : (readerOf w).phase =
            .body ⟨{ req with body := [] }, w.conn.keepAlive⟩ req.body :=
          phaseOf_body hw.leaving hstate
        have hbl : (httpProtocol h).bodyLen ⟨{ req with body := [] }, w.conn.keepAlive⟩ -
            req.body.length = need := hneed
        have hsplit := feed_split (httpProtocol h) hphase (c := d) (by rw [hbl]; omega)
        rw [hbl] at hsplit
        rw [hfuture, hsplit, pass_readBody hw hstate, hneed,
          httpPass_data hr (by rw [← List.length_pos_iff]; omega)]
        exact hwill

/-- A round does to the connection what the reader does with the chunk. -/
theorem willBe_pass (hh : h.HttpOnly) {w : World E} (hw : HttpOpen w) (hin : Chunked w.input) :
    WillBe h (future h w) (pass h w).1 (pass h w).2 := by
  obtain ⟨max, bytes, hpass⟩ := exists_httpPass (h := h) hw
  have hidle : ∀ {flow rest}, Chunked rest → chunksOf rest = chunksOf w.input →
      WillBe h (future h w) flow { w with input := rest } := by
    intro flow rest hrest hchunks
    refine .inl ⟨⟨hw.mode, hw.leaving, hw.body⟩, hrest, ?_⟩
    simp only [future, hchunks]
    rfl
  rcases hinput : w.input with - | ⟨r, rest⟩
  · simp only [hpass, httpPass, hinput, recv]
    exact hidle (by simp [Chunked]) (by rw [hinput])
  · have hrest : Chunked rest := by
      intro r' hr'
      exact hin r' (by rw [hinput]; exact List.mem_cons_of_mem r hr')
    obtain ⟨herr, hdata⟩ := hin r (by rw [hinput]; exact List.mem_cons_self)
    cases r with
    | error => exact absurd rfl herr
    | wouldBlock =>
        simp only [hpass, httpPass, hinput, recv]
        exact hidle hrest (by rw [hinput]; rfl)
    | eintr =>
        simp only [hpass, httpPass, hinput, recv]
        exact hidle hrest (by rw [hinput]; rfl)
    | data d =>
        obtain ⟨hd, hlen⟩ := hdata d rfl
        exact willBe_pass_data hh hw hinput hd hlen hrest

theorem willBe_of_reachable (hh : h.HttpOnly) {w₀ w : World E} {flow : Flow} (hw₀ : HttpOpen w₀)
    (hin : Chunked w₀.input) (hw : Reachable h w₀ flow w) : WillBe h (future h w₀) flow w := by
  have hstep : ∀ {flow w}, WillBe h (future h w₀) flow w → flow = .again ∨ w.conn.leaving = false →
      WillBe h (future h w₀) (pass h w).1 (pass h w).2 := by
    rintro flow w (⟨hopen, hchunked, hfuture⟩ | ⟨hflow, hleave, -⟩) hcont
    · rw [← hfuture]
      exact willBe_pass hh hopen hchunked
    · rcases hcont with hagain | hopen
      · rw [hflow] at hagain
        cases hagain
      · rw [hleave] at hopen
        cases hopen
  induction hw with
  | start => exact .inl ⟨hw₀, hin, rfl⟩
  | enter _ hopen ih => exact hstep ih (.inr hopen)
  | next _ ih => exact hstep ih (.inl rfl)

/-- What is to be seen of a connection when all of its input has been handled: the requests
that were dispatched, and whether the connection was closed. -/
def observed (h : Handlers E) (e : E) (input : List Recv) : List Request × Bool :=
  (dispatched (serve h (.start e input)).log, (serve h (.start e input)).conn.leaving)

/-- **Every run of the server is a run of the reader**, whatever the readable events are. -/
theorem outcome_serve (hh : h.HttpOnly) (e : E) {input : List Recv} (hin : Chunked input) :
    observed h e input =
      (feedAll (httpProtocol h) ⟨e, .header [], []⟩ (chunksOf input)).outcome := by
  obtain ⟨hreach, hdone⟩ := serve_spec h (World.start e input)
  have hstart : HttpOpen (World.start e input) := ⟨rfl, rfl, by rintro req ⟨⟩⟩
  have hfuture : future h (World.start e input) =
      (feedAll (httpProtocol h) ⟨e, .header [], []⟩ (chunksOf input)).outcome := rfl
  rw [observed, ← hfuture]
  rcases willBe_of_reachable hh hstart hin hreach with ⟨hopen, -, hfin⟩ | ⟨-, hleave, hres⟩
  · have hnil : (serve h (World.start e input)).input = [] := by
      refine hdone.resolve_right ?_
      simp [hopen.leaving]
    rw [← hfin, future, hnil, hopen.leaving]
    have hclosed : (readerOf (serve h (World.start e input))).phase.isClosed = false := by
      simp only [readerOf, phaseOf, hopen.leaving, Bool.false_eq_true, if_false]
      split <;> rfl
    exact Prod.ext rfl hclosed.symm
  · rw [hres, hleave]

/-! ### Segmentation -/

/-- The server does the same thing with the stream `s`, however it arrives: it dispatches the
same requests and keeps or closes the connection alike. -/
def SameOutcome (h : Handlers E) (e : E) (s : Bytes) : Prop :=
  ∀ input₁ input₂, Chunked input₁ → Chunked input₂ → bytesOf input₁ = s → bytesOf input₂ = s →
    observed h e input₁ = observed h e input₂

theorem flatten_chunksOf (input : List Recv) : (chunksOf input).flatten = bytesOf input := by
  induction input with
  | nil => rfl
  | cons r rest ih => cases r <;> simpa [chunksOf, bytesOf, Recv.bytes] using ih

/-- An input in chunks is a reading of its bytes. -/
theorem reads_chunksOf {input : List Recv} (hin : Chunked input) :
    Reads 4095 0 (bytesOf input) [] (chunksOf input) := by
  refine ⟨le_rfl, flatten_chunksOf input, ?_⟩
  intro c hc
  obtain ⟨r, hr, hrc⟩ := List.mem_filterMap.mp hc
  cases r with
  | data d =>
      cases hrc
      exact (hin _ hr).2 c rfl
  | wouldBlock => cases hrc
  | eintr => cases hrc
  | error => cases hrc

/-- Chunks as an input. -/
theorem chunksOf_map (cs : List Bytes) : chunksOf (cs.map .data) = cs := by
  induction cs with
  | nil => rfl
  | cons c cs ih => exact congrArg (c :: ·) ih

/-- **Segmentation**: the server does the same thing with a stream in every segmentation exactly
if the stream is safe: while it is read in chunks of at most 4095 bytes, no complete request is
left in the header buffer with nothing to follow it, and a header block is never pushed over
the limit of 8192 bytes by what follows it. -/
theorem sameOutcome_iff_safe (hh : h.HttpOnly) (e : E) (s : Bytes) :
    SameOutcome h e s ↔ Safe (httpProtocol h) 4095 e 0 s := by
  have hlimit : 0 < (httpProtocol h).limit := Nat.zero_lt_succ 8191
  have hiff : Agree (httpProtocol h) 4095 e 0 s [] ↔ Safe (httpProtocol h) 4095 e 0 s :=
    agree_iff_safe (by norm_num) hlimit
  rw [← hiff]
  constructor
  · intro hsame b₁ cs₁ b₂ cs₂ h₁ h₂
    have hb : ∀ {b cs}, Reads 4095 0 s b cs → b = [] ∧ Chunked (cs.map .data) ∧
        bytesOf (cs.map .data) = s := by
      intro b cs hread
      have hnil : b = [] := List.length_eq_zero_iff.mp (Nat.le_zero.mp hread.length_le)
      refine ⟨hnil, ?_, ?_⟩
      · intro r hr
        obtain ⟨c, hc, rfl⟩ := List.mem_map.mp hr
        refine ⟨by simp, ?_⟩
        rintro d ⟨⟩
        exact hread.chunks c hc
      · rw [← flatten_chunksOf, chunksOf_map, ← hread.flatten, hnil, List.nil_append]
    obtain ⟨rfl, hc₁, hs₁⟩ := hb h₁
    obtain ⟨rfl, hc₂, hs₂⟩ := hb h₂
    have hobs := hsame _ _ hc₁ hc₂ hs₁ hs₂
    rwa [outcome_serve hh e hc₁, outcome_serve hh e hc₂, chunksOf_map, chunksOf_map] at hobs
  · rintro hagree input₁ input₂ hc₁ hc₂ rfl hs₂
    rw [outcome_serve hh e hc₁, outcome_serve hh e hc₂]
    refine hagree _ _ _ _ (reads_chunksOf hc₁) ?_
    rw [← hs₂]
    exact reads_chunksOf hc₂

/-- Two pipelined requests. In one chunk, the second one is never dispatched. -/
theorem not_sameOutcome_pipelined :
    ¬SameOutcome (.plain 200) () (ascii ['G', 'E', 'T', ' ', '/', ' ', 'H', '\r', '\n', '\r', '\n',
      'G', 'E', 'T', ' ', '/', ' ', 'H', '\r', '\n', '\r', '\n']) := by
  intro hsame
  have hobs := hsame
    [.data (ascii ['G', 'E', 'T', ' ', '/', ' ', 'H', '\r', '\n', '\r', '\n',
      'G', 'E', 'T', ' ', '/', ' ', 'H', '\r', '\n', '\r', '\n'])]
    [.data (ascii ['G', 'E', 'T', ' ', '/', ' ', 'H', '\r', '\n', '\r', '\n']),
      .data (ascii ['G', 'E', 'T', ' ', '/', ' ', 'H', '\r', '\n', '\r', '\n'])]
    (by simp [Chunked, ascii]) (by simp [Chunked, ascii]) (by decide) (by decide)
  have hlen := congrArg (fun res => res.1.length) hobs
  revert hlen
  decide

/-- One request is dispatched however it arrives. -/
theorem sameOutcome_single :
    SameOutcome (.plain 200) () (ascii ['G', 'E', 'T', ' ', '/', ' ', 'H', '\r', '\n', '\r',
      '\n']) := by
  have hh : (Handlers.plain 200).HttpOnly := ⟨fun _ _ => by simp [Handlers.plain], fun _ _ => rfl⟩
  refine (sameOutcome_iff_safe hh () _).mpr ?_
  generalize hs : ascii ['G', 'E', 'T', ' ', '/', ' ', 'H', '\r', '\n', '\r', '\n'] = s
  have hlen : s.length = 11 := by rw [← hs]; rfl
  have hn : (httpProtocol (.plain 200)).blockLen (s.take 8191) = some 11 := by
    rw [← hs]
    rfl
  have hsome : ((httpProtocol (.plain 200)).parse (s.take 11)).map
      (fun p => (p.req.bodyLen, p.keepAlive)) = some (0, true) := by
    rw [← hs]
    rfl
  obtain ⟨p, hparse, hp⟩ := Option.map_eq_some_iff.mp hsome
  obtain ⟨hbody, hkeep⟩ := Prod.mk.inj hp
  have hbl : (httpProtocol (.plain 200)).bodyLen p = 0 := hbody
  have hdeliver : (httpProtocol (.plain 200)).deliver () p
      ((s.drop 11).take ((httpProtocol (.plain 200)).bodyLen p)) = some ((), true) := by
    simp only [httpProtocol, Handlers.plain, hkeep]
    rfl
  refine .delivered hn hparse (by omega) hdeliver (by omega) ?_ ?_
  · rintro ⟨-, hover⟩
    have hlimit : (httpProtocol (.plain 200)).limit = 8192 := rfl
    omega
  · intro _
    rw [hbl, List.drop_of_length_le (by omega)]
    exact .noBlock rfl

end HttpServer
