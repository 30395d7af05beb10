import LibCore.HttpFraming

/-!
# The WebSocket Stream

What a WebSocket connection delivers does not depend on how its bytes arrive. A stream is cut
into legal frames, as far as it goes, and a rest at which reading stops: an incomplete frame,
an illegal one, or a close frame. However the stream is cut into results of `recv`, with a
prefix of it already in `header_buf` when the handler answers 101, the callback receives the
payloads of the text and binary frames in order and nothing of the rest. As long as the rest
is a prefix of a legal frame, the input buffer always has room for it.

## Main definitions

* `Handlers.Keeping`: handlers that do not close the connection, and pongs that succeed.
* `StreamEnd`: the rests at which reading stops.
* `WsOpen`, `WsClosed`: the two states of a connection on such a stream.

## Main results

* `processWsFrames_spec`: what the frame loop does with the buffer.
* `frames_serve`: what the callback receives in a whole run.
-/

open CString

namespace HttpServer

open Ws (Frame wsDecodeFrame3)

/-- The bytes of a list of frames. -/
def wires (fs : List Frame) : Bytes := (fs.map Frame.wire).flatten

/-- What the callback is to receive: opcode and payload of the text and binary frames. -/
def dataFrames (fs : List Frame) : List (Ws.Opcode × Bytes) :=
  fs.filterMap fun f => if f.opcode.isControl then none else some (f.opcode, f.payload)

/-- The rests at which reading stops: an incomplete frame (or nothing), an illegal frame, or a
close frame. -/
def StreamEnd (tail : Bytes) : Prop :=
  wsDecodeFrame3 tail = .needMore tail ∨ wsDecodeFrame3 tail = .error tail ∨
    ∃ buf payload n, wsDecodeFrame3 tail = .ok buf payload n .close

variable {E : Type}

/-- Handlers that do not close the connection, and pongs that succeed. -/
structure Handlers.Keeping (h : Handlers E) : Prop where
  onWsOpen : ∀ e, (h.onWsOpen e).2 = .none
  onWsFrame : ∀ e opcode payload, (h.onWsFrame e opcode payload).2 = .none
  sendPong : ∀ e payload, (h.sendPong e payload).2 = (true, .none)

/-- Neither an error nor the end of the stream. -/
def Clean (input : List Recv) : Prop := ∀ r ∈ input, r ≠ .error ∧ r ≠ .data []

variable {h : Handlers E}

/-! ### The frame loop -/

/-- Calling out of a connection that is being closed does not open it again. -/
theorem leaving_applyEffect (eff : Effect) {w : World E} (hw : w.conn.leaving = true) :
    (applyEffect h eff w).conn.leaving = true := by
  cases eff with
  | none => exact hw
  | close => rfl
  | shutdown => exact leaving_of_isShut (isShut_connShutdown h w)
  | stop =>
      simp only [applyEffect]
      split
      · exact leaving_of_isShut (isShut_connShutdown h _)
      · rfl

/-- A close frame or an illegal frame closes the connection and delivers nothing. -/
theorem wsCloseOrShutdown_spec (w : World E) :
    (wsCloseOrShutdown h w).2.conn.leaving = true ∧
      frames (wsCloseOrShutdown h w).2.log = frames w.log := by
  unfold wsCloseOrShutdown wsCloseChecked
  by_cases hmode : w.conn.mode ≠ .ws ∨ w.conn.isClosing = true
  · simp only [hmode, if_true]
    exact ⟨leaving_of_isShut (isShut_connShutdown h w), frames_connShutdown h w⟩
  · simp only [hmode, if_false]
    refine ⟨leaving_applyEffect _ rfl, ?_⟩
    rw [frames_applyEffect]
    simp [World.record, World.setConn, frames]

/-- What follows `w` in the frame loop: the connection as before, with the frames delivered. -/
structure Delivered (w : World E) (fs : List Frame) (w' : World E) : Prop where
  input : w'.input = w.input
  mode : w'.conn.mode = w.conn.mode
  leaving : w'.conn.leaving = false
  wsInCap : w'.conn.wsInCap = w.conn.wsInCap
  frames : frames w'.log = frames w.log ++ dataFrames fs

theorem Delivered.refl {w : World E} (hopen : w.conn.leaving = false) : Delivered w [] w :=
  ⟨rfl, rfl, hopen, rfl, by simp [dataFrames]⟩

theorem Delivered.trans {w₁ w₂ w₃ : World E} {fs gs : List Frame} (h₁ : Delivered w₁ fs w₂)
    (h₂ : Delivered w₂ gs w₃) : Delivered w₁ (fs ++ gs) w₃ where
  input := h₂.input.trans h₁.input
  mode := h₂.mode.trans h₁.mode
  leaving := h₂.leaving
  wsInCap := h₂.wsInCap.trans h₁.wsInCap
  frames := by
    rw [h₂.frames, h₁.frames, dataFrames, dataFrames, dataFrames, List.filterMap_append,
      List.append_assoc]

/-- Consuming a frame after what was done with it. -/
theorem delivered_wsConsume {w w' : World E} {f : Frame} (hopen : w.conn.leaving = false)
    (hconn : w'.conn = w.conn) (hin : w'.input = w.input)
    (hframes : frames w'.log = frames w.log ++ dataFrames [f]) (buf : Bytes) (n : ℕ) :
    Delivered w [f] (wsConsume buf n w') := by
  constructor
  · exact hin
  · simp only [wsConsume, World.record, World.setConn, hconn]
  · simp only [wsConsume, World.record, World.setConn, hconn]
    exact hopen
  · simp only [wsConsume, World.record, World.setConn, hconn]
  · simpa [wsConsume, World.record, World.setConn, frames] using hframes

/-- A text or binary frame goes to the callback. -/
theorem wsDeliver_eq (hk : h.Keeping) {w : World E} (hopen : w.conn.shutdownDone = false)
    (opcode : Ws.Opcode) (payload : Bytes) :
    wsDeliver h opcode payload w = { w with env := (h.onWsFrame w.env opcode payload).1 }.record
      (.wsFrame opcode payload) := by
  simp [wsDeliver, hopen, hk.onWsFrame, applyEffect]

/-- A legal frame that is not a close frame is delivered and consumed. -/
theorem processWsFrames_frame (hk : h.Keeping) {w : World E} (hmode : w.conn.mode = .ws)
    (hopen : w.conn.leaving = false) {f : Frame} (hf : f.opcode ≠ .close) {x : Bytes}
    (hx : w.conn.wsInBuf = f.wire ++ x) (fuel : ℕ) :
    ∃ w', processWsFrames h (fuel + 1) w = processWsFrames h fuel w' ∧
      w'.conn.wsInBuf = x ∧ Delivered w [f] w' := by
  obtain ⟨buf, hdec⟩ := Ws.wsDecodeFrame3_wire f x
  obtain ⟨-, -, hdrop⟩ := Ws.drop_of_ok hdec
  rw [List.drop_left] at hdrop
  have hne : f.wire ++ x ≠ [] := by simp [Frame.wire]
  have hclosing : w.conn.isClosing = false ∧ w.conn.shutdownDone = false := by
    simp only [Conn.leaving, Bool.or_eq_false_iff] at hopen
    exact hopen.1
  -- whatever was done with the frame, it is consumed and the loop goes on
  have hnext : ∀ w' : World E, w'.conn = w.conn → w'.input = w.input →
      frames w'.log = frames w.log ++ dataFrames [f] →
      ∃ w'', (if (wsConsume buf f.wire.length w').conn.leaving then
          (false, wsConsume buf f.wire.length w') else
          processWsFrames h fuel (wsConsume buf f.wire.length w')) = processWsFrames h fuel w'' ∧
        w''.conn.wsInBuf = x ∧ Delivered w [f] w'' := by
    intro w' hconn hin hframes
    have hd := delivered_wsConsume hopen hconn hin hframes buf f.wire.length
    exact ⟨_, if_neg (by rw [hd.leaving]; simp), hdrop, hd⟩
  simp only [processWsFrames, hx, hne, if_false, hdec]
  cases hop : f.opcode with
  | close => exact absurd hop hf
  | ping =>
      have hlen : ¬f.payload.length > 125 := by
        have hfits := f.form_fits
        rw [f.control_short (by rw [hop]; rfl)] at hfits
        simpa [Ws.LengthForm.capacity] using hfits
      have hpong : wsSendPong h f.payload w = (true,
          { w with env := (h.sendPong w.env f.payload).1 }.record (.wsPong f.payload)) := by
        simp [wsSendPong, hmode, hclosing.1, hlen, hk.sendPong, applyEffect]
      simp only [hpong]
      exact hnext _ rfl rfl (by simp [World.record, frames, dataFrames, hop, Ws.Opcode.isControl])
  | text =>
      simp only [wsDeliver_eq hk hclosing.2]
      exact hnext _ rfl rfl (by simp [World.record, frames, dataFrames, hop, Ws.Opcode.isControl])
  | binary =>
      simp only [wsDeliver_eq hk hclosing.2]
      exact hnext _ rfl rfl (by simp [World.record, frames, dataFrames, hop, Ws.Opcode.isControl])
  | pong =>
      exact hnext w rfl rfl (by simp [dataFrames, hop, Ws.Opcode.isControl])

/-- What a decoder result on a part of the buffer says about the whole stream. -/
theorem decode_append_cases {x r s : Bytes} (hs : x ++ r = s) :
    wsDecodeFrame3 x = .needMore x ∨
      (wsDecodeFrame3 x = .error x ∧ wsDecodeFrame3 s = .error s) ∨
      ∃ buf payload n op, wsDecodeFrame3 x = .ok buf payload n op ∧
        wsDecodeFrame3 s = .ok (buf ++ r) payload n op := by
  subst hs
  cases hdec : wsDecodeFrame3 x with
  | needMore buf => exact .inl (by rw [Ws.eq_of_wsDecodeFrame3 (.inl hdec)])
  | error buf =>
      obtain rfl := Ws.eq_of_wsDecodeFrame3 (.inr hdec)
      exact .inr (.inl ⟨rfl, Ws.wsDecodeFrame3_error_append hdec r⟩)
  | ok buf payload n op =>
      exact .inr (.inr ⟨_, _, _, _, rfl, Ws.wsDecodeFrame3_ok_append hdec r⟩)

/-- A buffer that decodes, at the head of a stream that starts with a frame, holds the frame. -/
theorem exists_of_decode {x r t : Bytes} {f : Frame} (hs : x ++ r = f.wire ++ t)
    (hdec : (wsDecodeFrame3 x = .error x ∧ wsDecodeFrame3 (f.wire ++ t) = .error (f.wire ++ t)) ∨
      ∃ buf payload n op, wsDecodeFrame3 x = .ok buf payload n op ∧
        wsDecodeFrame3 (f.wire ++ t) = .ok (buf ++ r) payload n op) :
    ∃ y, x = f.wire ++ y ∧ y ++ r = t := by
  obtain ⟨buf', hwire⟩ := Ws.wsDecodeFrame3_wire f t
  rcases hdec with ⟨-, herr⟩ | ⟨buf, payload, n, op, hx, hok⟩
  · rw [hwire] at herr
    cases herr
  · rw [hwire, Ws.Decoded.ok.injEq] at hok
    obtain ⟨-, -, hn, -⟩ := hok
    obtain ⟨-, hle, -⟩ := Ws.drop_of_ok hx
    have hle' : f.wire.length ≤ x.length := by omega
    have htake : x.take f.wire.length = f.wire := by
      rw [← List.take_append_of_le_length hle', hs, List.take_left]
    refine ⟨x.drop f.wire.length, ?_, ?_⟩
    · rw [← htake, List.length_take_of_le hle', List.take_append_drop]
    · rw [← List.drop_append_of_le_length hle', hs, List.drop_left]

/-- At the end of the stream the loop closes and delivers nothing. -/
theorem processWsFrames_end {tail r : Bytes} (htail : StreamEnd tail) {w : World E}
    (hnil : w.conn.wsInBuf ≠ [])
    (hdec : (wsDecodeFrame3 w.conn.wsInBuf = .error w.conn.wsInBuf ∧
        wsDecodeFrame3 (wires [] ++ tail) = .error (wires [] ++ tail)) ∨
      ∃ buf payload n op, wsDecodeFrame3 w.conn.wsInBuf = .ok buf payload n op ∧
        wsDecodeFrame3 (wires [] ++ tail) = .ok (buf ++ r) payload n op) (fuel : ℕ) :
    (processWsFrames h (fuel + 1) w).2.conn.leaving = true ∧
      frames (processWsFrames h (fuel + 1) w).2.log = frames w.log ++ dataFrames [] ∧
      wsDecodeFrame3 tail ≠ .needMore tail := by
  have htail' : wires [] ++ tail = tail := rfl
  rw [htail'] at hdec
  rw [show dataFrames [] = [] by rfl, List.append_nil]
  rcases hdec with ⟨hx, herr⟩ | ⟨buf, payload, n, op, hx, hok⟩
  · simp only [processWsFrames, hnil, if_false, hx]
    obtain ⟨hleave, hframes⟩ := wsCloseOrShutdown_spec (h := h) w
    exact ⟨hleave, hframes, by simp [herr]⟩
  · obtain rfl : op = .close := by
      rcases htail with hmore | herr | ⟨_, _, _, hclose⟩
      · rw [hmore] at hok
        cases hok
      · rw [herr] at hok
        cases hok
      · rw [hclose] at hok
        cases hok
        rfl
    simp only [processWsFrames, hnil, if_false, hx]
    obtain ⟨hleave, hframes⟩ := wsCloseOrShutdown_spec (h := h) (wsConsume buf n w)
    refine ⟨hleave, hframes.trans ?_, by simp [hok]⟩
    simp [wsConsume, World.record, World.setConn, frames]

/-- The frame loop on a buffer `x` with the bytes `r` still to come: it delivers the frames
that are complete and keeps a part of the next one, or it delivers all of them, meets the end
of the stream and closes. -/
theorem processWsFrames_spec (hk : h.Keeping) {tail : Bytes} (htail : StreamEnd tail)
    {fuel : ℕ} {w : World E} {fs : List Frame} {r : Bytes} (hmode : w.conn.mode = .ws)
    (hopen : w.conn.leaving = false) (hfs : ∀ f ∈ fs, f.opcode ≠ .close)
    (hs : w.conn.wsInBuf ++ r = wires fs ++ tail) (hfuel : w.conn.wsInBuf.length ≤ fuel) :
    (∃ w' fs₁ fs₂, processWsFrames h fuel w = (true, w') ∧ fs = fs₁ ++ fs₂ ∧
      Delivered w fs₁ w' ∧ w'.conn.wsInBuf ++ r = wires fs₂ ++ tail ∧
      wsDecodeFrame3 w'.conn.wsInBuf = .needMore w'.conn.wsInBuf ∧
      w'.conn.wsInBuf.length ≤ w.conn.wsInBuf.length) ∨
    ((processWsFrames h fuel w).2.conn.leaving = true ∧
      frames (processWsFrames h fuel w).2.log = frames w.log ++ dataFrames fs ∧
      wsDecodeFrame3 tail ≠ .needMore tail) := by
  induction fuel generalizing w fs with
  | zero =>
      have hnil : w.conn.wsInBuf = [] := List.length_eq_zero_iff.mp (by omega)
      exact .inl ⟨w, [], fs, rfl, rfl, .refl hopen, hs, by rw [hnil]; rfl, le_rfl⟩
  | succ fuel ih =>
      by_cases hnil : w.conn.wsInBuf = []
      · refine .inl ⟨w, [], fs, ?_, rfl, .refl hopen, hs, by rw [hnil]; rfl, le_rfl⟩
        simp [processWsFrames, hnil]
      · rcases decode_append_cases hs with hmore | hdec
        · refine .inl ⟨w, [], fs, ?_, rfl, .refl hopen, hs, hmore, le_rfl⟩
          simp [processWsFrames, hnil, hmore]
        · cases fs with
          | nil => exact .inr (processWsFrames_end htail hnil hdec fuel)
          | cons f fs =>
              have hs' : w.conn.wsInBuf ++ r = f.wire ++ (wires fs ++ tail) := by
                rw [hs, wires, List.map_cons, List.flatten_cons, List.append_assoc]
                rfl
              obtain ⟨x, hx, hx'⟩ := exists_of_decode hs' (by rwa [← hs', hs])
              obtain ⟨w', heq, hbuf, hd⟩ :=
                processWsFrames_frame hk hmode hopen (hfs f (by simp)) hx fuel
              have hlen : w.conn.wsInBuf.length = f.wire.length + w'.conn.wsInBuf.length := by
                rw [hx, hbuf, List.length_append]
              have hpos : 0 < f.wire.length := by simp [Frame.wire]
              rw [heq]
              have hfs' : ∀ g ∈ fs, g.opcode ≠ .close := by
                intro g hg
                exact hfs g (List.mem_cons_of_mem f hg)
              rcases ih (hd.mode.trans hmode) hd.leaving hfs' (by rw [hbuf, hx'])
                (by omega) with
                ⟨w'', fs₁, fs₂, hres, rfl, hd', hrest⟩ | ⟨hleave, hframes, hend⟩
              · exact .inl ⟨w'', f :: fs₁, fs₂, hres, rfl, hd.trans hd', hrest.1, hrest.2.1,
                  by omega⟩
              · refine .inr ⟨hleave, ?_, hend⟩
                rw [hframes, hd.frames, List.append_assoc, dataFrames, dataFrames, dataFrames,
                  ← List.filterMap_append]
                rfl

/-! ### Runs -/

/-- A WebSocket connection that is open on the stream `wires fs ++ tail`: the buffer holds a
part of the next frame and has not outgrown its capacity, and `total` is what was delivered
and what is to be. -/
structure WsOpen (tail : Bytes) (total : List (Ws.Opcode × Bytes)) (w : World E) : Prop where
  mode : w.conn.mode = .ws
  leaving : w.conn.leaving = false
  clean : Clean w.input
  decode : wsDecodeFrame3 w.conn.wsInBuf = .needMore w.conn.wsInBuf
  le_cap : w.conn.wsInBuf.length ≤ w.conn.wsInCap
  stream : ∃ fs : List Frame, (∀ f ∈ fs, f.opcode ≠ .close) ∧
    w.conn.wsInBuf ++ bytesOf w.input = wires fs ++ tail ∧ total = frames w.log ++ dataFrames fs

/-- A WebSocket connection that has met the end of its stream. -/
structure WsClosed (tail : Bytes) (total : List (Ws.Opcode × Bytes)) (w : World E) : Prop where
  leaving : w.conn.leaving = true
  frames : frames w.log = total
  tail : wsDecodeFrame3 tail ≠ .needMore tail

/-- The largest frame is smaller than the largest input buffer. -/
theorem maxFrame_lt_maxWsInCap : Ws.maxPayloadSize + 14 < maxWsInCap := by
  decide

/-- The input buffer has room for the rest of a legal frame. -/
theorem exists_growWsBuf {c : Conn} (hdec : wsDecodeFrame3 c.wsInBuf = .needMore c.wsInBuf)
    (hcap : c.wsInBuf.length ≤ c.wsInCap) :
    ∃ c', growWsBuf c = some c' ∧ c'.mode = c.mode ∧ c'.leaving = c.leaving ∧
      c'.wsInBuf = c.wsInBuf ∧ c.wsInBuf.length < c'.wsInCap := by
  have hlen := Ws.length_of_needMore hdec
  have hsome : ∃ c', growWsBuf c = some c' ∧ c.wsInBuf.length < c'.wsInCap := by
    unfold growWsBuf
    by_cases hzero : c.wsInCap = 0
    · simp only [hzero, if_true]
      rw [if_neg (by omega)]
      exact ⟨_, rfl, by simp only []; omega⟩
    · simp only [hzero, if_false]
      by_cases hfull : c.wsInBuf.length = c.wsInCap
      · rw [if_pos hfull]
        by_cases hmax : c.wsInCap * 2 > maxWsInCap
        · have hroom : c.wsInBuf.length < maxWsInCap := hlen.trans maxFrame_lt_maxWsInCap
          rw [if_pos hmax, if_neg (by omega)]
          exact ⟨_, rfl, hroom⟩
        · rw [if_neg hmax]
          exact ⟨_, rfl, by simp only []; omega⟩
      · rw [if_neg hfull]
        exact ⟨c, rfl, by omega⟩
  obtain ⟨c', hgrow, hroom⟩ := hsome
  have hc := growWsBuf_eq hgrow
  refine ⟨c', hgrow, ?_, ?_, ?_, hroom⟩
  · rw [hc]
  · rw [hc]
    rfl
  · rw [hc]

/-- `recv` with some room, on an input without errors and without an end. -/
theorem clean_recv {max : ℕ} (hmax : 0 < max) {input rest : List Recv} {r : Recv}
    (hin : Clean input) (hr : recv max input = (r, rest)) :
    Clean rest ∧ r ≠ .error ∧ r ≠ .data [] := by
  rcases input with - | ⟨r', input⟩
  · cases hr
    exact ⟨hin, by simp, by simp⟩
  · have htail : Clean input := fun r hr => hin r (List.mem_cons_of_mem _ hr)
    have hhead := hin r' List.mem_cons_self
    cases r' with
    | data d =>
        simp only [recv] at hr
        split at hr
        · cases hr
          exact ⟨htail, hhead⟩
        · rename_i hlong
          cases hr
          refine ⟨?_, by simp, ?_⟩
          · rintro r (- | ⟨-, hr⟩)
            · refine ⟨by simp, ?_⟩
              simp only [ne_eq, Recv.data.injEq, List.drop_eq_nil_iff]
              omega
            · exact htail r hr
          · simp only [ne_eq, Recv.data.injEq, List.take_eq_nil_iff]
            rintro (hzero | rfl)
            · omega
            · simp at hlong
    | wouldBlock =>
        cases hr
        exact ⟨htail, hhead⟩
    | eintr =>
        cases hr
        exact ⟨htail, hhead⟩
    | error => exact absurd rfl hhead.1

/-- Frames delivered from the buffer, in a connection on a stream. -/
theorem wsOpen_or_closed (hk : h.Keeping) {tail : Bytes} (htail : StreamEnd tail)
    {w : World E} {fs : List Frame} (hmode : w.conn.mode = .ws)
    (hopen : w.conn.leaving = false) (hin : Clean w.input)
    (hcap : w.conn.wsInBuf.length ≤ w.conn.wsInCap) (hfs : ∀ f ∈ fs, f.opcode ≠ .close)
    (hs : w.conn.wsInBuf ++ bytesOf w.input = wires fs ++ tail) :
    (∃ w', processWsBuffer h w = (true, w') ∧
      WsOpen tail (frames w.log ++ dataFrames fs) w') ∨
      WsClosed tail (frames w.log ++ dataFrames fs) (processWsBuffer h w).2 := by
  rcases processWsFrames_spec hk htail hmode hopen hfs hs le_rfl with
    ⟨w', fs₁, fs₂, hres, rfl, hd, hrest, hdec, hlen⟩ | ⟨hleave, hframes, hend⟩
  · refine .inl ⟨w', hres, hd.mode.trans hmode, hd.leaving, by rwa [hd.input], hdec,
      by rw [hd.wsInCap]; omega, fs₂, ?_, by rw [hd.input, hrest], ?_⟩
    · intro f hf
      exact hfs f (List.mem_append_right fs₁ hf)
    · rw [hd.frames, List.append_assoc, dataFrames, List.filterMap_append]
      rfl
  · exact .inr ⟨hleave, hframes, hend⟩

/-- A round on an open connection. -/
theorem wsOpen_pass (hk : h.Keeping) {tail : Bytes} (htail : StreamEnd tail)
    {total : List (Ws.Opcode × Bytes)} {w : World E} (hw : WsOpen tail total w) :
    WsOpen tail total (pass h w).2 ∨
      (pass h w).1 = .leave ∧ WsClosed tail total (pass h w).2 := by
  obtain ⟨fs, hfs, hs, rfl⟩ := hw.stream
  obtain ⟨c, hgrow, hmode, hleave, hbuf, hroom⟩ := exists_growWsBuf hw.decode hw.le_cap
  have hpass : pass h w = wsPass h w := by simp only [pass, hw.mode]
  rw [hw.mode] at hmode
  rw [hw.leaving] at hleave
  rw [← hbuf] at hs hroom
  simp only [hpass, wsPass, hgrow]
  have hrecv := bytesOf_recv (c.wsInCap - c.wsInBuf.length) w.input
  rcases hr : recv (c.wsInCap - c.wsInBuf.length) w.input with ⟨r, rest⟩
  obtain ⟨hclean, herr, hend⟩ := clean_recv (by omega) hw.clean hr
  rw [hr] at hrecv
  -- the same bytes in a larger buffer
  have hidle : bytesOf w.input = bytesOf rest →
      WsOpen tail (frames w.log ++ dataFrames fs) { w with conn := c, input := rest } := by
    intro hbytes
    exact ⟨hmode, hleave, hclean, by rw [hbuf]; exact hw.decode, hroom.le, fs, hfs,
      by rw [← hs, hbytes], rfl⟩
  cases r with
  | data d =>
      cases d with
      | nil => exact absurd rfl hend
      | cons b d =>
          have hlen := length_recv_le hr
          have hstep := wsOpen_or_closed hk htail
            (w := { w with conn := { c with wsInBuf := c.wsInBuf ++ b :: d }, input := rest })
            hmode hleave hclean (by simp only [List.length_append]; omega) hfs
            (by rw [← hs, hrecv, List.append_assoc]; rfl)
          simp only []
          rcases hres : processWsBuffer h
            { w with conn := { c with wsInBuf := c.wsInBuf ++ b :: d }, input := rest } with
            ⟨ok, w'⟩
          rw [hres] at hstep
          rcases hstep with ⟨w'', hres', hopen⟩ | hclosed
          · cases hres'
            simp only [hopen.leaving, Bool.false_eq_true, if_false]
            exact .inl hopen
          · cases ok with
            | false => exact .inr ⟨rfl, hclosed⟩
            | true =>
                simp only [hclosed.leaving, if_true]
                exact .inr ⟨trivial, hclosed⟩
  | wouldBlock => exact .inl (hidle hrecv)
  | eintr => exact .inl (hidle hrecv)
  | error => exact absurd rfl herr

/-- An open connection with nothing left to do has delivered everything and holds the rest. -/
theorem WsOpen.of_done {tail : Bytes} {total : List (Ws.Opcode × Bytes)} {w : World E}
    (hw : WsOpen tail total w) (hdone : w.Done) :
    frames w.log = total ∧ wsDecodeFrame3 tail = .needMore tail := by
  have hin : w.input = [] := by
    refine hdone.resolve_right ?_
    simp [hw.leaving]
  obtain ⟨fs, -, hs, rfl⟩ := hw.stream
  rw [hin, bytesOf, List.map_nil, List.flatten_nil, List.append_nil] at hs
  have hdec := hw.decode
  rw [hs] at hdec
  cases fs with
  | nil => exact ⟨by simp [dataFrames], hdec⟩
  | cons f fs =>
      obtain ⟨buf, hwire⟩ := Ws.wsDecodeFrame3_wire f (wires fs ++ tail)
      rw [wires, List.map_cons, List.flatten_cons, List.append_assoc] at hdec
      rw [wires, hdec] at hwire
      cases hwire

/-- A complete request whose handler answers 101, on an open connection that has not been in
WebSocket mode. -/
structure Upgrades (h : Handlers E) (req : Request) (w : World E) : Prop where
  leaving : w.conn.leaving = false
  wsInBuf : w.conn.wsInBuf = []
  serving : h.shuttingDown w.env = false
  status : (h.dispatch w.env req).2 = (101, .none)

/-- The switch to WebSocket mode starts the stream with what is left in `header_buf`. -/
theorem wsOpen_upgrade (hk : h.Keeping) {tail : Bytes} (htail : StreamEnd tail) {w : World E}
    {fs : List Frame} (hopen : w.conn.leaving = false) (hws : w.conn.wsInBuf = [])
    (hin : Clean w.input) (hfs : ∀ f ∈ fs, f.opcode ≠ .close)
    (hs : w.conn.headerBuf ++ bytesOf w.input = wires fs ++ tail) :
    WsOpen tail (frames w.log ++ dataFrames fs) (upgrade h w) ∨
      WsClosed tail (frames w.log ++ dataFrames fs) (upgrade h w) := by
  have hc : w.conn.toWs.mode = .ws ∧ w.conn.toWs.leaving = w.conn.leaving ∧
      w.conn.toWs.shutdownDone = w.conn.shutdownDone ∧
      w.conn.toWs.wsInBuf = w.conn.headerBuf ∧
      w.conn.toWs.wsInBuf.length ≤ w.conn.toWs.wsInCap := by
    unfold Conn.toWs
    by_cases hlen : 0 < w.conn.headerBuf.length
    · rw [if_pos hlen]
      refine ⟨rfl, rfl, rfl, rfl, ?_⟩
      simp only []
      split <;> omega
    · have hnil : w.conn.headerBuf = [] := List.length_eq_zero_iff.mp (by omega)
      rw [if_neg hlen, hnil]
      exact ⟨rfl, rfl, rfl, hws, by simp [hws]⟩
  obtain ⟨hmode, hleave, hdone, hbuf, hcap⟩ := hc
  have hshut : w.conn.shutdownDone = false := by
    simp only [Conn.leaving, Bool.or_eq_false_iff] at hopen
    exact hopen.1.2
  have hwsOpen : HttpServer.wsOpen h (w.setConn w.conn.toWs) =
      { w with env := (h.onWsOpen w.env).1, conn := w.conn.toWs }.record .wsOpened := by
    simp [HttpServer.wsOpen, World.setConn, hdone, hshut, hk.onWsOpen, applyEffect]
  have hframes : frames (w.log ++ [.wsOpened]) = frames w.log := by simp [frames]
  rw [hopen] at hleave
  rw [← hbuf] at hs
  simp only [upgrade, hwsOpen, World.record, hleave, Bool.false_eq_true, if_false]
  split
  · have hstep := wsOpen_or_closed hk htail
      (w := { w with env := (h.onWsOpen w.env).1, conn := w.conn.toWs
                     log := w.log ++ [.wsOpened] }) hmode hleave hin hcap hfs hs
    rw [hframes] at hstep
    rcases hstep with ⟨w', hres, hw'⟩ | hclosed
    · rw [hres]
      exact .inl hw'
    · exact .inr hclosed
  · rename_i hlen
    have hnil : w.conn.toWs.wsInBuf = [] := List.length_eq_zero_iff.mp (by omega)
    exact .inl ⟨hmode, hleave, hin, by rw [hnil]; rfl, hcap, fs, hfs, hs, by rw [hframes]⟩

/-- Along every run the connection is open on its stream, or it has met the end of it. -/
theorem wsOpen_of_reachable (hk : h.Keeping) {tail : Bytes} (htail : StreamEnd tail)
    {total : List (Ws.Opcode × Bytes)} {w₀ w : World E} {flow : Flow}
    (hw₀ : WsOpen tail total w₀ ∨ WsClosed tail total w₀) (hw : Reachable h w₀ flow w) :
    WsOpen tail total w ∨ flow = .leave ∧ WsClosed tail total w := by
  induction hw with
  | start => exact hw₀.imp_right fun hclosed => ⟨rfl, hclosed⟩
  | enter _ hopen ih =>
      rcases ih with hw | ⟨-, hclosed⟩
      · exact wsOpen_pass hk htail hw
      · rw [hclosed.leaving] at hopen
        cases hopen
  | next _ ih =>
      rcases ih with hw | ⟨hflow, -⟩
      · exact wsOpen_pass hk htail hw
      · cases hflow

/-- **WebSocket stream refinement**: a connection whose handler has answered 101, with the
stream of legal frames and then `tail` partly in `header_buf` and partly still to be received
in any pieces. The callback receives the payloads of the text and binary frames, in order, and
nothing of the rest; the connection stays open if the rest is a prefix of a legal frame and is
closed otherwise; and as long as it is open, its input buffer has room. -/
theorem frames_serve (hk : h.Keeping) {req : Request} {w : World E} (hw : Upgrades h req w)
    (hin : Clean w.input) {fs : List Frame} {tail : Bytes}
    (hfs : ∀ f ∈ fs, f.opcode ≠ .close) (htail : StreamEnd tail)
    (hs : w.conn.headerBuf ++ bytesOf w.input = wires fs ++ tail) :
    frames (serve h (finishRequest h req w).2).log = frames w.log ++ dataFrames fs ∧
      ((serve h (finishRequest h req w).2).conn.leaving = false ↔
        wsDecodeFrame3 tail = .needMore tail) ∧
      ∀ flow w', Reachable h (finishRequest h req w).2 flow w' → w'.conn.leaving = false →
        (growWsBuf w'.conn).isSome = true := by
  have hdispatch : dispatchRequest h req w =
      (101, { w with env := (h.dispatch w.env req).1 }.record (.dispatched req)) := by
    simp [dispatchRequest, hw.status, applyEffect]
  have hfinish : (finishRequest h req w).2 =
      upgrade h ({ w with env := (h.dispatch w.env req).1 }.record (.dispatched req)) := by
    simp [finishRequest, hw.serving, hdispatch]
  have hstart := wsOpen_upgrade hk htail
    (w := { w with env := (h.dispatch w.env req).1 }.record (.dispatched req))
    hw.leaving hw.wsInBuf hin hfs hs
  have hframes : frames ({ w with env := (h.dispatch w.env req).1 }.record
      (.dispatched req)).log = frames w.log := by
    simp [World.record, frames]
  rw [hframes, ← hfinish] at hstart
  have hrun : ∀ flow w', Reachable h (finishRequest h req w).2 flow w' →
      WsOpen tail (frames w.log ++ dataFrames fs) w' ∨
        flow = .leave ∧ WsClosed tail (frames w.log ++ dataFrames fs) w' :=
    fun _ _ => wsOpen_of_reachable hk htail hstart
  obtain ⟨hreach, hdone⟩ := serve_spec h (finishRequest h req w).2
  have hend : frames (serve h (finishRequest h req w).2).log = frames w.log ++ dataFrames fs ∧
      ((serve h (finishRequest h req w).2).conn.leaving = false ↔
        wsDecodeFrame3 tail = .needMore tail) := by
    rcases hrun _ _ hreach with hopen | ⟨-, hclosed⟩
    · obtain ⟨hframes', hmore⟩ := hopen.of_done hdone
      exact ⟨hframes', by simp [hopen.leaving, hmore]⟩
    · exact ⟨hclosed.frames, by simp [hclosed.leaving, hclosed.tail]⟩
  refine ⟨hend.1, hend.2, ?_⟩
  intro flow w' hw' hopen
  rcases hrun flow w' hw' with hwopen | ⟨-, hclosed⟩
  · obtain ⟨c, hgrow, -⟩ := exists_growWsBuf hwopen.decode hwopen.le_cap
    rw [hgrow]
    rfl
  · rw [hclosed.leaving] at hopen
    cases hopen

/-- A text frame, the first three bytes of it behind the upgrade request, and half a frame. -/
theorem frames_serve_sample :
    let f : Frame := ⟨.text, .short, [1, 2, 3, 4], [0x48, 0x69], rfl, by decide, by decide,
      fun _ => rfl, by decide⟩
    let req : Request := ⟨.get, [0x2F], .new 16, .new 32, [], 0⟩
    let w : World Unit := ⟨(), { Conn.new with headerBuf := f.wire.take 3 },
      [.data (f.wire.drop 3), .wouldBlock, .data [0x81]], []⟩
    frames (serve (.plain 101) (finishRequest (.plain 101) req w).2).log =
        [(.text, [0x48, 0x69])] ∧
      (serve (.plain 101) (finishRequest (.plain 101) req w).2).conn.leaving = false := by
  intro f req w
  have hk : (Handlers.plain 101).Keeping := ⟨fun _ => rfl, fun _ _ _ => rfl, fun _ _ => rfl⟩
  have hclean : Clean w.input := by
    simp only [Clean, w, List.forall_mem_cons, List.not_mem_nil, false_implies, implies_true,
      and_true]
    refine ⟨⟨by simp, ?_⟩, by simp, by simp⟩
    rw [ne_eq, Recv.data.injEq]
    decide
  have hs : w.conn.headerBuf ++ bytesOf w.input = wires [f] ++ [0x81] := by decide
  have hw : Upgrades (.plain 101) req w := ⟨rfl, rfl, rfl, rfl⟩
  obtain ⟨hframes, hopen, -⟩ := frames_serve hk hw hclean (by simp [f]) (.inl rfl) hs
  exact ⟨hframes, hopen.mpr rfl⟩

end HttpServer
