import LibCore.HttpConnection
import LibCore.HttpHeaderGrammar

/-!
# Request Framing

Where one request ends and the next one starts. A header block ends with the first CRLFCRLF
of the stream, and what the parser makes of it depends on the block alone, not on the bytes
that happen to be in the buffer behind it. The body is the next content-length bytes.

Along every run the bytes received so far are the requests dispatched so far, one after the
other, followed by the request in progress and by the bytes still buffered: no byte is lost,
duplicated or counted for two requests.

## Main definitions

* `parseBlock`: what a header block says.
* `RequestBytes`: the bytes of a request.
* `Conserved`: every byte received is accounted for.

## Main results

* `parseRequest_eq_parseBlock`: the parser reads the block and nothing else.
* `conserved_of_reachable`: conservation in every reachable state.
-/

open CString

namespace HttpServer

/-! ### Header blocks -/

/-- `strchr` on a part of a buffer. -/
theorem strchr_take (c : UInt8) (s : Bytes) (n : ℕ) :
    strchr c (s.take n) = (strchr c s).filter (· < n) := by
  induction s generalizing n with
  | nil => simp [strchr, cstr, memchr]
  | cons b s ih =>
      cases n with
      | zero => cases strchr c (b :: s) <;> simp [strchr, cstr, memchr]
      | succ n =>
          by_cases hz : b = 0
          · simp [strchr, cstr, hz, memchr]
          · by_cases hb : b = c
            · simp [strchr, cstr, hb, memchr, hb ▸ hz, Option.filter]
            · have ihn := ih n
              simp only [strchr, cstr, List.take_succ_cons] at ihn ⊢
              simp only [List.takeWhile_cons, hz, ne_eq, not_false_eq_true, decide_true, if_true,
                memchr, hb, if_false, ihn]
              cases memchr c (s.takeWhile fun x => decide ¬x = 0) with
              | none => rfl
              | some i => by_cases hi : i < n <;> simp [hi, Option.filter]

theorem crlf_ne_nil : crlf ≠ [] := by decide

theorem crlfcrlf_ne_nil : crlfcrlf ≠ [] := by decide

/-- What a header block says: the request, or the answer it is rejected with. -/
def parseBlock (block : Bytes) : Except Reply ParsedRequest :=
  (parseRequest block (block.length - 4)).map Prod.snd

section Block

variable {buf : Bytes} {headerEnd : ℕ} (hend : strstr crlfcrlf buf = some headerEnd)

include hend

/-- The block lies inside the buffer. -/
theorem block_le_length : headerEnd + 4 ≤ buf.length :=
  strstr_add_length_le crlfcrlf_ne_nil hend

/-- The block by itself ends at the same place. -/
theorem strstr_block : strstr crlfcrlf (buf.take (headerEnd + 4)) = some headerEnd :=
  strstr_take crlfcrlf_ne_nil hend le_rfl

/-- The block has the header lines of the buffer. -/
theorem headerLines_block :
    headerLines (buf.take (headerEnd + 4)) headerEnd = headerLines buf headerEnd := by
  obtain ⟨p, hp, hle, -⟩ := headerBlock_split hend
  have hp' : strstr crlf (buf.take (headerEnd + 4)) = some p :=
    strstr_take crlf_ne_nil hp (by simp only [crlf, List.length_cons, List.length_nil]; omega)
  simp only [headerLines, hp, hp']
  by_cases hlt : p ≥ headerEnd
  · simp [hlt]
  · rw [if_neg hlt, if_neg hlt, List.drop_take, List.take_take,
      Nat.min_eq_left (by omega)]

/-- The block has the request line of the buffer. -/
theorem parseRequestLine_block :
    parseRequestLine (buf.take (headerEnd + 4)) = parseRequestLine buf := by
  obtain ⟨p, hp, hle, -⟩ := headerBlock_split hend
  have hp' : strstr crlf (buf.take (headerEnd + 4)) = some p :=
    strstr_take crlf_ne_nil hp (by simp only [crlf, List.length_cons, List.length_nil]; omega)
  simp only [parseRequestLine, hp, hp', strchr_take]
  cases strchr 0x20 buf with
  | none => simp
  | some space =>
      by_cases hspace : space < headerEnd + 4
      · simp only [Option.filter, hspace, decide_true, if_true]
        by_cases hge : space ≥ p
        · simp [hge]
        · rw [if_neg hge, if_neg hge, List.take_take, List.take_take,
            Nat.min_eq_left (by omega), Nat.min_eq_left (by omega)]
      · simp [Option.filter, hspace, show p ≤ space by omega]

/-- **The parser reads the block and nothing else**: it rejects a buffer when it rejects the
block, and otherwise finds the request of the block and leaves the bytes behind it alone. -/
theorem parseRequest_eq_parseBlock :
    (∃ reply, parseBlock (buf.take (headerEnd + 4)) = .error reply ∧
      parseRequest buf headerEnd = .error reply) ∨
    ∃ p buf', parseBlock (buf.take (headerEnd + 4)) = .ok p ∧ p.req.body = [] ∧
      buf'.length = buf.length ∧ buf'.drop (headerEnd + 4) = buf.drop (headerEnd + 4) ∧
      parseRequest buf headerEnd = .ok (buf', p) := by
  have hlen : (buf.take (headerEnd + 4)).length - 4 = headerEnd := by
    have := block_le_length hend
    rw [List.length_take]
    omega
  obtain ⟨hok, hno⟩ := parseHeaders_eq hend (HashMap.new 32)
  obtain ⟨hok', hno'⟩ := parseHeaders_eq (strstr_block hend) (HashMap.new 32)
  rw [headerLines_block hend] at hok' hno'
  simp only [parseBlock, hlen, parseRequest, parseRequestLine_block hend]
  cases parseRequestLine buf with
  | error e => exact .inl ⟨e, rfl, rfl⟩
  | ok line =>
      simp only []
      cases parseQuery (strtok 0x26 line.queryString) (HashMap.new 16) with
      | none => exact .inl ⟨_, rfl, rfl⟩
      | some query =>
          simp only []
          by_cases hheaders : HeadersOk (headerLines buf headerEnd)
          · obtain ⟨buf₁, hlen₁, hdrop₁, hres₁⟩ := hok hheaders
            obtain ⟨buf₂, -, -, hres₂⟩ := hok' hheaders
            have hdrop : buf₁.drop (headerEnd + 4) = buf.drop (headerEnd + 4) := by
              rw [show headerEnd + 4 = headerEnd + 2 + 2 by rfl, ← List.drop_drop, hdrop₁,
                List.drop_drop]
            simp only [hres₁, hres₂]
            split
            · exact .inl ⟨_, rfl, rfl⟩
            · exact .inl ⟨_, rfl, rfl⟩
            · exact .inr ⟨_, _, rfl, rfl, hlen₁, hdrop, rfl⟩
            · exact .inr ⟨_, _, rfl, rfl, hlen₁, hdrop, rfl⟩
          · simp only [hno hheaders, hno' hheaders]
            exact .inl ⟨_, rfl, rfl⟩

end Block

/-! ### Conservation -/

/-- The bytes in a result of `recv`. -/
def Recv.bytes : Recv → Bytes
  | .data d => d
  | .wouldBlock | .eintr | .error => []

/-- The bytes in a list of results of `recv`. -/
def bytesOf (input : List Recv) : Bytes := (input.map Recv.bytes).flatten

/-- `block` is a header block, up to and including its CRLFCRLF, and announces the request. -/
def Announces (block : Bytes) (req : Request) : Prop :=
  (∃ headerEnd, strstr crlfcrlf block = some headerEnd ∧ block.length = headerEnd + 4) ∧
    ∃ p, parseBlock block = .ok p ∧ req = { p.req with body := req.body }

/-- The bytes of a request: its header block and exactly content-length bytes of body. -/
def RequestBytes (bytes : Bytes) (req : Request) : Prop :=
  ∃ block, Announces block req ∧ bytes = block ++ req.body ∧ req.body.length = req.bodyLen

variable {E : Type}

/-- The bytes the connection holds: `header_buf`; the block and the body of the request in
progress, with nothing in `header_buf`; or, behind an upgrade, the consumed bytes of the
WebSocket stream and `ws_in_buf`. -/
def Held (w : World E) (held : Bytes) : Prop :=
  match w.conn.mode, w.conn.state with
  | .http, .readHeader =>
      held = w.conn.headerBuf ∧ w.conn.wsInBuf = [] ∧ wsConsumed w.log = 0
  | .http, .readBody req =>
      (∃ block, Announces block req ∧ held = block ++ req.body) ∧
        req.body.length < req.bodyLen ∧ w.conn.headerBuf = [] ∧ w.conn.wsInBuf = [] ∧
        wsConsumed w.log = 0
  | .ws, _ => ∃ consumed, consumed.length = wsConsumed w.log ∧ held = consumed ++ w.conn.wsInBuf

/-- The stream `s` is what was dispatched, what is held and what is still to come. -/
def Conserved (s : Bytes) (w : World E) : Prop :=
  ∃ parts held, List.Forall₂ RequestBytes parts (dispatched w.log) ∧ Held w held ∧
    s = parts.flatten ++ held ++ bytesOf w.input

/-- Conservation as long as the connection has not been shut. -/
def Inv (s : Bytes) (w : World E) : Prop := w.conn.isShut = true ∨ Conserved s w

theorem Held.keeps {w w' : World E} {held : Bytes} (hw : Held w held) (hk : Keeps w w') :
    Held w' held := by
  simp only [Held, hk.mode, hk.state, hk.headerBuf, hk.wsInBuf, hk.consumed]
  exact hw

theorem Inv.keeps {s : Bytes} {w w' : World E} (hw : Inv s w) (hk : Keeps w w') : Inv s w' := by
  rcases hw with hshut | ⟨parts, held, hparts, hheld, hs⟩
  · exact .inl (hk.isShut hshut)
  · refine .inr ⟨parts, held, ?_, hheld.keeps hk, ?_⟩
    · rw [hk.dispatched]
      exact hparts
    · rw [hk.input]
      exact hs

variable (h : Handlers E)

theorem inv_connShutdown (s : Bytes) (w : World E) : Inv s (connShutdown h w) :=
  .inl (isShut_connShutdown h w)

/-! ### Frames -/

/-- Consuming a frame moves its bytes from `ws_in_buf` to the consumed bytes. -/
theorem inv_wsConsume {s : Bytes} {w : World E} (hw : Inv s w) (hmode : w.conn.mode = .ws)
    {buf : Bytes} {n : ℕ} (hn : n ≤ w.conn.wsInBuf.length)
    (hbuf : buf.drop n = w.conn.wsInBuf.drop n) : Inv s (wsConsume buf n w) := by
  rcases hw with hshut | ⟨parts, held, hparts, hheld, hs⟩
  · exact .inl hshut
  · simp only [Held, hmode] at hheld
    obtain ⟨consumed, hlen, rfl⟩ := hheld
    refine .inr ⟨parts, consumed ++ w.conn.wsInBuf, ?_, ?_, hs⟩
    · simpa [wsConsume, World.record, World.setConn, dispatched] using hparts
    · simp only [Held, wsConsume, World.record, World.setConn, hmode]
      refine ⟨consumed ++ w.conn.wsInBuf.take n, ?_, ?_⟩
      · simp [hlen, wsConsumed, hn]
      · rw [hbuf, List.append_assoc, List.take_append_drop]

/-- The frame loop keeps the invariant. -/
theorem inv_processWsFrames {s : Bytes} {w : World E} (hw : Inv s w)
    (hmode : w.conn.mode = .ws) (fuel : ℕ) : Inv s (processWsFrames h fuel w).2 := by
  induction fuel generalizing w with
  | zero => exact hw
  | succ fuel ih =>
      -- what follows a consumed frame: a return, or the next round
      have hnext : ∀ w' : World E, Inv s w' → w'.conn.mode = .ws →
          Inv s (if w'.conn.leaving then (false, w') else
            processWsFrames h fuel w').2 := by
        intro w' hw' hmode'
        split
        · exact hw'
        · exact ih hw' hmode'
      simp only [processWsFrames]
      split
      · exact hw
      · cases hdec : Ws.wsDecodeFrame3 w.conn.wsInBuf with
        | needMore buf => exact hw
        | error buf => exact hw.keeps (keeps_wsCloseOrShutdown h w)
        | ok buf payload consumed opcode =>
            obtain ⟨-, hn, hdrop⟩ := Ws.drop_of_ok hdec
            have hconsume : ∀ w' : World E, Keeps w w' → Inv s (wsConsume buf consumed w') := by
              intro w' hk
              refine inv_wsConsume (hw.keeps hk) (hk.mode.trans hmode) ?_ ?_
              · rwa [hk.wsInBuf]
              · rwa [hk.wsInBuf]
            have hmode' : ∀ w' : World E, Keeps w w' →
                (wsConsume buf consumed w').conn.mode = .ws := by
              intro w' hk
              exact hk.mode.trans hmode
            cases opcode with
            | close =>
                exact (hconsume w (.refl w)).keeps (keeps_wsCloseOrShutdown h _)
            | ping =>
                have hk := keeps_wsSendPong h payload w
                simp only []
                revert hk
                rcases wsSendPong h payload w with ⟨sent, w'⟩
                intro hk
                cases sent with
                | false => exact inv_connShutdown h s _
                | true => exact hnext _ (hconsume w' hk) (hmode' w' hk)
            | text =>
                have hk := keeps_wsDeliver h .text payload w
                exact hnext _ (hconsume _ hk) (hmode' _ hk)
            | binary =>
                have hk := keeps_wsDeliver h .binary payload w
                exact hnext _ (hconsume _ hk) (hmode' _ hk)
            | pong => exact hnext _ (hconsume w (.refl w)) (hmode' w (.refl w))

/-- Growing the input buffer changes its capacity and nothing else. -/
theorem growWsBuf_eq {c c' : Conn} (hc : growWsBuf c = some c') :
    c' = { c with wsInCap := c'.wsInCap } := by
  have hcap : ∀ n : ℕ, ∃ m : ℕ, (if c.wsInCap = 0 then { c with wsInCap := n } else c) =
      { c with wsInCap := m } := by
    intro n
    split
    · exact ⟨n, rfl⟩
    · exact ⟨c.wsInCap, rfl⟩
  obtain ⟨m, hm⟩ := hcap 8192
  simp only [growWsBuf, hm] at hc
  split_ifs at hc <;> (obtain rfl := Option.some.inj hc; rfl)

/-! ### Rounds -/

/-- What `recv` returns is the head of the bytes to come. -/
theorem bytesOf_recv (max : ℕ) (input : List Recv) :
    bytesOf input = (recv max input).1.bytes ++ bytesOf (recv max input).2 := by
  rcases input with - | ⟨r, rest⟩
  · rfl
  · cases r with
    | data d =>
        simp only [recv]
        split
        · rfl
        · simp only [bytesOf, Recv.bytes, List.map_cons, List.flatten_cons]
          rw [← List.append_assoc, List.take_append_drop]
    | wouldBlock => rfl
    | eintr => rfl
    | error => rfl

/-- A connection in HTTP mode between two requests, with `s` the requests dispatched so far,
`rest`, and what is to come. -/
def Between (s rest : Bytes) (w : World E) : Prop :=
  w.conn.mode = .http ∧ w.conn.state = .readHeader ∧ w.conn.wsInBuf = [] ∧
    wsConsumed w.log = 0 ∧ ∃ parts, List.Forall₂ RequestBytes parts (dispatched w.log) ∧
      s = parts.flatten ++ rest ++ bytesOf w.input

theorem Between.conserved {s : Bytes} {w : World E} (hw : Between s w.conn.headerBuf w) :
    Conserved s w := by
  obtain ⟨hmode, hstate, hws, hcons, parts, hparts, hs⟩ := hw
  refine ⟨parts, w.conn.headerBuf, hparts, ?_, hs⟩
  simp only [Held, hmode, hstate]
  exact ⟨trivial, hws, hcons⟩

/-- The header buffer is handed over. -/
theorem inv_toWs {s : Bytes} {w : World E}
    (hw : w.conn.isShut = true ∨ Between s w.conn.headerBuf w) :
    Inv s (w.setConn w.conn.toWs) := by
  rcases hw with hshut | ⟨-, -, hws, hcons, parts, hparts, hs⟩
  · left
    simp only [World.setConn, Conn.toWs]
    split <;> exact hshut
  · refine .inr ⟨parts, w.conn.headerBuf, hparts, ?_, hs⟩
    have hheld : w.conn.toWs.mode = .ws ∧ w.conn.headerBuf = w.conn.toWs.wsInBuf := by
      simp only [Conn.toWs]
      split
      · exact ⟨rfl, rfl⟩
      · rename_i hlen
        exact ⟨rfl, by rw [hws]; exact List.length_eq_zero_iff.mp (by omega)⟩
    simp only [Held, World.setConn, hheld.1]
    exact ⟨[], hcons.symm, by rw [List.nil_append, hheld.2]⟩

theorem inv_upgrade {s : Bytes} {w : World E}
    (hw : w.conn.isShut = true ∨ Between s w.conn.headerBuf w) : Inv s (upgrade h w) := by
  have hk := keeps_wsOpen h (w.setConn w.conn.toWs)
  have hinv := (inv_toWs hw).keeps hk
  have hmode : w.conn.toWs.mode = .ws := by
    simp only [Conn.toWs]
    split <;> rfl
  simp only [upgrade]
  split
  · exact hinv
  · split
    · exact inv_processWsFrames h hinv (hk.mode.trans hmode) _
    · exact hinv

/-- A dispatched request moves from what is held to what was dispatched. -/
theorem between_dispatchRequest {s : Bytes} {req : Request} {w : World E}
    (hw : w.conn.isShut = true ∨
      ∃ bytes, RequestBytes bytes req ∧ Between s (bytes ++ w.conn.headerBuf) w) :
    (dispatchRequest h req w).2.conn.isShut = true ∨
      Between s (dispatchRequest h req w).2.conn.headerBuf (dispatchRequest h req w).2 := by
  have hk := keeps_dispatchRequest h req w
  generalize (dispatchRequest h req w).2 = w' at hk ⊢
  rcases hw with hshut | ⟨bytes, hreq, hmode, hstate, hws, hcons, parts, hparts, hs⟩
  · exact .inl (hk.isShut hshut)
  · have hlog : dispatched (w.log ++ [.dispatched req]) = dispatched w.log ++ [req] := by
      simp [dispatched]
    refine .inr ⟨hk.mode.trans hmode, hk.state.trans hstate, hk.wsInBuf.trans hws, ?_,
      parts ++ [bytes], ?_, ?_⟩
    · refine hk.consumed.trans ?_
      simpa [World.record, wsConsumed] using hcons
    · rw [hk.dispatched, World.record, hlog]
      exact List.rel_append hparts (.cons hreq .nil)
    · rw [hk.headerBuf, hk.input, hs]
      simp [World.record]

theorem inv_finishRequest {s : Bytes} {req : Request} {w : World E}
    (hw : w.conn.isShut = true ∨
      ∃ bytes, RequestBytes bytes req ∧ Between s (bytes ++ w.conn.headerBuf) w) :
    Inv s (finishRequest h req w).2 := by
  have hdispatch := between_dispatchRequest h hw
  simp only [finishRequest]
  split
  · exact inv_connShutdown h s _
  · split
    · exact inv_upgrade h hdispatch
    · split
      · exact inv_connShutdown h s _
      · split <;> exact hdispatch.imp_right Between.conserved

/-- The header block of a buffer announces the request, whatever its body. -/
theorem announces_block {buf : Bytes} {headerEnd : ℕ} {p : ParsedRequest}
    (hend : strstr crlfcrlf buf = some headerEnd)
    (hp : parseBlock (buf.take (headerEnd + 4)) = .ok p) (body : Bytes) :
    Announces (buf.take (headerEnd + 4)) { p.req with body := body } := by
  refine ⟨⟨headerEnd, strstr_block hend, ?_⟩, p, hp, rfl⟩
  exact List.length_take_of_le (block_le_length hend)

theorem inv_startBody {s buf buf' : Bytes} {headerEnd : ℕ} {p : ParsedRequest} {w : World E}
    (hend : strstr crlfcrlf buf = some headerEnd)
    (hp : parseBlock (buf.take (headerEnd + 4)) = .ok p) (hbody : p.req.body = [])
    (hlen : buf'.length = buf.length)
    (hdrop : buf'.drop (headerEnd + 4) = buf.drop (headerEnd + 4))
    (hw : w.conn.isShut = true ∨ Between s buf w) :
    Inv s (startBody h buf' headerEnd p w).2 := by
  have hann := announces_block hend hp
  have htail : ∀ k, buf'.drop (headerEnd + 4 + k) = (buf.drop (headerEnd + 4)).drop k := by
    intro k
    rw [← List.drop_drop, hdrop]
  have hrest : buf'.length - (headerEnd + 4) = (buf.drop (headerEnd + 4)).length := by
    rw [hlen, List.length_drop]
  have hsplit := List.take_append_drop (headerEnd + 4) buf
  simp only [startBody, hdrop, htail, hrest]
  generalize buf.take (headerEnd + 4) = block at *
  generalize buf.drop (headerEnd + 4) = tail at *
  split
  · rename_i hpos
    have hbodylen : (tail.take (min tail.length p.req.bodyLen)).length =
        min tail.length p.req.bodyLen := List.length_take_of_le (by omega)
    split
    · -- the buffer ends inside the body
      rename_i hlt
      have hall : min tail.length p.req.bodyLen = tail.length := by omega
      rcases hw with hshut | ⟨hmode, -, hws, hcons, parts, hparts, hs⟩
      · exact .inl hshut
      · refine .inr ⟨parts, buf, hparts, ?_, hs⟩
        simp only [Held, World.setConn, hmode]
        refine ⟨⟨_, hann _, ?_⟩, by rwa [hbodylen], ?_, hws, hcons⟩
        · rw [hall, List.take_length, hsplit]
        · rw [hall, List.drop_length]
    · rename_i hdone
      have hfull : min tail.length p.req.bodyLen = p.req.bodyLen := by omega
      refine inv_finishRequest h (hw.imp id ?_)
      rintro ⟨hmode, hstate, hws, hcons, parts, hparts, hs⟩
      refine ⟨_, ⟨_, hann _, rfl, hbodylen.trans hfull⟩, hmode, hstate, hws, hcons, parts, hparts, ?_⟩
      simp only [World.setConn]
      rw [hs, List.append_assoc block, List.take_append_drop, hsplit]
  · have hreq : RequestBytes block p.req := by
      refine ⟨_, ?_, by rw [hbody, List.append_nil], by rw [hbody]; simp; omega⟩
      exact hann p.req.body
    refine inv_finishRequest h (hw.imp id ?_)
    rintro ⟨hmode, hstate, hws, hcons, parts, hparts, hs⟩
    refine ⟨_, hreq, hmode, hstate, hws, hcons, parts, hparts, ?_⟩
    simp only [World.setConn]
    rw [hs, hsplit]

theorem inv_headerBytes {s d : Bytes} {w : World E}
    (hw : w.conn.isShut = true ∨ Between s (w.conn.headerBuf ++ d) w) :
    Inv s (headerBytes h d w).2 := by
  simp only [headerBytes]
  split
  · exact inv_connShutdown h s _
  · generalize hbuf : w.conn.headerBuf ++ d = buf at hw ⊢
    have hw' : (w.setConn { w.conn with headerBuf := buf }).conn.isShut = true ∨
        Between s buf (w.setConn { w.conn with headerBuf := buf }) := hw
    cases hend : strstr crlfcrlf buf with
    | none => exact hw'.imp_right Between.conserved
    | some headerEnd =>
        rcases parseRequest_eq_parseBlock hend with
          ⟨reply, -, hres⟩ | ⟨p, buf', hp, hbody, hlen, hdrop, hres⟩
        · simp only [hres]
          exact inv_connShutdown h s _
        · simp only [hres]
          exact inv_startBody h hend hp hbody hlen hdrop hw'

theorem inv_bodyBytes {s d : Bytes} {req : Request} {w : World E}
    (hmax : d.length ≤ req.bodyLen - req.body.length)
    (hw : w.conn.isShut = true ∨ ∃ block, Announces block req ∧
      req.body.length < req.bodyLen ∧ w.conn.headerBuf = [] ∧
      Between s (block ++ req.body ++ d) (w.setConn { w.conn with state := .readHeader })) :
    Inv s (bodyBytes h req d w).2 := by
  have hann : ∀ block, Announces block req →
      Announces block { req with body := req.body ++ d } := by
    rintro block ⟨hend, p, hp, hreq⟩
    exact ⟨hend, p, hp, by rw [hreq]⟩
  simp only [bodyBytes]
  split
  · rename_i hmore
    rcases hw with hshut | ⟨block, hblock, -, hbuf, hmode, -, hws, hcons, parts, hparts, hs⟩
    · exact .inl hshut
    · refine .inr ⟨parts, _, hparts, ?_, hs⟩
      have hmode' : w.conn.mode = .http := hmode
      simp only [Held, World.setConn, hmode']
      exact ⟨⟨block, hann block hblock, List.append_assoc _ _ _⟩, hmore, hbuf, hws, hcons⟩
  · rename_i hdone
    refine inv_finishRequest h (hw.imp id ?_)
    rintro ⟨block, hblock, hlt, hbuf, hbetween⟩
    have hfull : (req.body ++ d).length = req.bodyLen := by
      rw [List.length_append] at hdone ⊢
      omega
    refine ⟨_, ⟨block, hann block hblock, rfl, hfull⟩, ?_⟩
    simpa [World.setConn, hbuf] using hbetween

/-- A result of `recv` fits into the room it was given. -/
theorem length_recv_le {max : ℕ} {input rest : List Recv} {d : Bytes}
    (hr : recv max input = (.data d, rest)) : d.length ≤ max := by
  rcases input with - | ⟨r, input⟩
  · cases hr
  · cases r with
    | data d' =>
        simp only [recv] at hr
        split at hr
        · rename_i hle
          cases hr
          exact hle
        · cases hr
          exact List.length_take_le _ _
    | wouldBlock => cases hr
    | eintr => cases hr
    | error => cases hr

/-- The invariant of a connection whose input has been shortened by a result of `recv`. -/
theorem Inv.of_recv {s : Bytes} {w : World E} (hw : Inv s w) {max : ℕ} {r : Recv}
    {rest : List Recv} (hr : recv max w.input = (r, rest)) (hbytes : r.bytes = []) :
    Inv s { w with input := rest } := by
  rcases hw with hshut | ⟨parts, held, hparts, hheld, hs⟩
  · exact .inl hshut
  · have hrecv := bytesOf_recv max w.input
    rw [hr, hbytes, List.nil_append] at hrecv
    exact .inr ⟨parts, held, hparts, hheld, by rw [hs, hrecv]⟩

theorem inv_httpPass {s : Bytes} {w : World E} (hw : Inv s w) {max : ℕ}
    {bytes : Bytes → World E → Flow × World E}
    (hbytes : ∀ d rest, d.length ≤ max → bytesOf w.input = d ++ bytesOf rest →
      Inv s (bytes d { w with input := rest }).2) :
    Inv s (httpPass h max bytes w).2 := by
  unfold httpPass
  have hrecv := bytesOf_recv max w.input
  rcases hr : recv max w.input with ⟨r, rest⟩
  rw [hr] at hrecv
  cases r with
  | data d =>
      cases d with
      | nil => exact inv_connShutdown h s _
      | cons b d => exact hbytes (b :: d) rest (length_recv_le hr) hrecv
  | wouldBlock => exact hw.of_recv hr rfl
  | eintr => exact hw.of_recv hr rfl
  | error => exact inv_connShutdown h s _

theorem inv_wsPass {s : Bytes} {w : World E} (hw : Inv s w) (hmode : w.conn.mode = .ws) :
    Inv s (wsPass h w).2 := by
  unfold wsPass
  cases hgrow : growWsBuf w.conn with
  | none => exact inv_connShutdown h s _
  | some c =>
      have hc := growWsBuf_eq hgrow
      -- a larger buffer holds the same bytes
      have hw' : Inv s (w.setConn c) := by
        refine hw.keeps ?_
        rw [hc]
        constructor <;> simp [World.setConn, Conn.isShut]
      simp only []
      rcases hr : recv (c.wsInCap - c.wsInBuf.length) w.input with ⟨r, rest⟩
      cases r with
      | data d =>
          cases d with
          | nil => exact inv_connShutdown h s _
          | cons b d =>
              have hinv : Inv s { w with
                  conn := { c with wsInBuf := c.wsInBuf ++ b :: d }, input := rest } := by
                rcases hw' with hshut | ⟨parts, held, hparts, hheld, hs⟩
                · exact .inl hshut
                · have hrecv := bytesOf_recv (c.wsInCap - c.wsInBuf.length) w.input
                  rw [hr] at hrecv
                  have hmode' : c.mode = .ws := by
                    rw [hc]
                    exact hmode
                  simp only [Held, World.setConn, hmode'] at hheld
                  obtain ⟨consumed, hlen, rfl⟩ := hheld
                  refine .inr ⟨parts, consumed ++ (c.wsInBuf ++ b :: d), hparts, ?_, ?_⟩
                  · simp only [Held, hmode']
                    exact ⟨consumed, hlen, rfl⟩
                  · simp only [World.setConn] at hs
                    rw [hs, hrecv]
                    simp [Recv.bytes]
              have hframes := inv_processWsFrames h hinv (by rw [hc]; exact hmode)
                (c.wsInBuf ++ b :: d).length
              simp only [processWsBuffer]
              revert hframes
              rcases processWsFrames h (c.wsInBuf ++ b :: d).length _ with ⟨sent, w'⟩
              intro hframes
              cases sent with
              | false => exact hframes
              | true =>
                  simp only []
                  split <;> exact hframes
      | wouldBlock => exact hw'.of_recv hr rfl
      | eintr => exact hw'.of_recv hr rfl
      | error => exact inv_connShutdown h s _

/-- A round keeps the invariant. -/
theorem inv_pass {s : Bytes} {w : World E} (hw : Inv s w) : Inv s (pass h w).2 := by
  unfold pass
  cases hmode : w.conn.mode with
  | ws => exact inv_wsPass h hw hmode
  | http =>
      cases hstate : w.conn.state with
      | readHeader =>
          refine inv_httpPass h hw ?_
          intro d rest _ hrest
          refine inv_headerBytes h (hw.imp id ?_)
          rintro ⟨parts, held, hparts, hheld, hs⟩
          simp only [Held, hmode, hstate] at hheld
          obtain ⟨rfl, hws, hcons⟩ := hheld
          refine ⟨hmode, hstate, hws, hcons, parts, hparts, ?_⟩
          rw [hs, hrest]
          simp
      | readBody req =>
          refine inv_httpPass h hw ?_
          intro d rest hmax hrest
          refine inv_bodyBytes h (by omega) (hw.imp id ?_)
          rintro ⟨parts, held, hparts, hheld, hs⟩
          simp only [Held, hmode, hstate] at hheld
          obtain ⟨⟨block, hann, rfl⟩, hlt, hbuf, hws, hcons⟩ := hheld
          refine ⟨block, hann, hlt, hbuf, hmode, rfl, hws, hcons, parts, hparts, ?_⟩
          simp only [World.setConn]
          rw [hs, hrest]
          simp

/-- **Request framing conservation**: in every state between two rounds of a connection that
has not been shut, the bytes received so far are the dispatched requests, each with its block
and exactly its content length of body, followed by the bytes the connection holds. -/
theorem conserved_of_reachable (e : E) (input : List Recv) {flow : Flow} {w : World E}
    (hw : Reachable h (.start e input) flow w) (hopen : w.conn.isShut = false) :
    Conserved (bytesOf input) w := by
  have hinv : Inv (bytesOf input) w := by
    clear hopen
    induction hw with
    | start => exact .inr ⟨[], [], .nil, ⟨rfl, rfl, rfl⟩, rfl⟩
    | enter _ _ ih => exact inv_pass h ih
    | next _ ih => exact inv_pass h ih
  exact hinv.resolve_left (by simp [hopen])

/-- A whole request and the start of the next one in one call of `recv`. -/
theorem conserved_of_reachable_sample :
    let input : List Recv := [.data (ascii ['G', 'E', 'T', ' ', '/', ' ', 'H', '\r', '\n', '\r',
      '\n', 'G', 'E'])]
    let w := (pass (.plain 200) (.start () input)).2
    (dispatched w.log).length = 1 ∧ w.conn.headerBuf = ascii ['G', 'E'] ∧
      Conserved (bytesOf input) w := by
  intro input w
  have hopen : w.conn.isShut = false := rfl
  refine ⟨rfl, rfl, ?_⟩
  exact conserved_of_reachable (.plain 200) () input (.enter .start rfl) hopen

end HttpServer
