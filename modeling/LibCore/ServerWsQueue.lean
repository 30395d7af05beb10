import LibCore.ServerEvents

/-!
# The Bound of the WebSocket Queue

`MAX_WS_OUT_QUEUE` bounds what the application may queue on a WebSocket connection whose peer is
slow. `HttpConnection_ws_send_text`, `_binary` and `_pong` refuse a frame that does not fit, and a
close frame adds two bytes to the last queue. `HttpConnection_ws_send` has no such check.

## Main results

* `ws_queue_bounded`: the queue stays within the bound if every frame of `ws_send` fits.
* `ws_send_exceeds_bound`: a message that does not.
-/

open CString

namespace Server

/-- What may happen to a WebSocket connection: one of the six calls, or its socket can be written. -/
inductive WsOp
  | send (msg : Bytes)
  | sendText (text : Bytes)
  | sendBinary (data : Bytes)
  | sendPong (data : Bytes)
  | close
  | closeChecked
  | writable

/-- The event on connection `c`. -/
def WsOp.event (c : ConnId) : WsOp → Event
  | .send msg => .wsCall (.send c msg)
  | .sendText text => .wsCall (.sendText c text)
  | .sendBinary data => .wsCall (.sendBinary c data)
  | .sendPong data => .wsCall (.sendPong c data)
  | .close => .wsCall (.close c)
  | .closeChecked => .wsCall (.closeChecked c)
  | .writable => .writable c

/-- The frame of a `ws_send` that goes through fits into the queue. -/
def WsOp.Fits (c : ConnId) (w : World) : WsOp → Prop
  | .send msg => (w.conns c).isClosing = false → (w.conns c).sockOpen = true →
      (w.conns c).outBuf.length + (wsBuildTextFrame msg).length ≤ maxWsOutQueue
  | _ => True

/-- Every `ws_send` of a run fits. -/
def SendsFit (notify : ConnId → World → World) (c : ConnId) : World → List WsOp → Prop
  | _, [] => True
  | w, op :: ops => op.Fits c w ∧ SendsFit notify c ((op.event c).exec notify w) ops

/-- The queue is within the bound, and one close frame more on a connection that is closing. -/
structure Conn.Bounded (x : Conn) : Prop where
  open_le : x.isClosing = false → x.outBuf.length ≤ maxWsOutQueue
  le : x.outBuf.length ≤ maxWsOutQueue + 2

section Calls

variable {lossless : Prop} {w : World} {notify : ConnId → World → World}
  (hnotify : Notifies lossless notify)

include hnotify

theorem flush_length_le (hsafe : Safe lossless w) (c : ConnId) :
    ((World.flush notify c w).conns c).outBuf.length ≤ (w.conns c).outBuf.length := by
  obtain ⟨sent, hsent⟩ := flush_outBuf hnotify hsafe c
  rw [hsent, List.length_append]
  omega

theorem bounded_flush (hsafe : Safe lossless w) {c : ConnId} (h : (w.conns c).Bounded) :
    ((World.flush notify c w).conns c).Bounded := by
  have hle := flush_length_le hnotify hsafe c
  have hlater := (quiet_flush hnotify hsafe c).steps.later c
  refine ⟨fun hopen => ?_, hle.trans h.le⟩
  have hopen' : (w.conns c).isClosing = false := by
    by_contra hclosing
    rw [hlater.isClosing (by simpa using hclosing)] at hopen
    simp at hopen
  exact hle.trans (h.open_le hopen')

/-- A frame that fits is queued and flushed. -/
theorem bounded_append_flush (hsafe : Safe lossless w) {c : ConnId} {data : Bytes}
    (h : (w.conns c).Bounded) (hfits : (w.conns c).outBuf.length + data.length ≤ maxWsOutQueue) :
    ((World.flush notify c (World.append c data w).2).conns c).Bounded := by
  have hqueue : Quiet lossless (allBut c) w (World.append c data w).2 := quiet_append c data w
  refine bounded_flush hnotify (hsafe.quiet hqueue) ?_
  rcases append_self c data w with hsame | ⟨cap, hqueued⟩
  · rw [hsame]
    exact h
  · have hlen : ((World.append c data w).2.conns c).outBuf.length ≤ maxWsOutQueue := by
      rw [hqueued]
      simpa [Conn.queued] using hfits
    exact ⟨fun _ => hlen, by omega⟩

theorem bounded_wsSend (hsafe : Safe lossless w) {c : ConnId} {msg : Bytes}
    (h : (w.conns c).Bounded) (hfits : WsOp.Fits c w (.send msg)) :
    ((World.wsSend notify c msg w).2.conns c).Bounded := by
  have halloc : Quiet lossless (allBut c) w w.alloc.2 := quiet_alloc w
  rw [World.wsSend]
  dsimp only
  split_ifs with happart hsock hok
  · exact h
  · exact h
  · exact h
  · have hopen : (w.conns c).isClosing = false := by
      by_contra hclosing
      exact happart (.inr (by simpa using hclosing))
    exact bounded_append_flush hnotify (hsafe.quiet halloc) h (hfits hopen (by simpa using hsock))

theorem bounded_wsSendLimited (hsafe : Safe lossless w) (opcode : Ws.Opcode) (maxLen : ℕ)
    {c : ConnId} (data : Bytes) (h : (w.conns c).Bounded) :
    ((World.wsSendLimited notify opcode maxLen c data w).2.conns c).Bounded := by
  have halloc : Quiet lossless (allBut c) w w.alloc.2 := quiet_alloc w
  rw [World.wsSendLimited]
  dsimp only
  split_ifs with happart hlong hok hfull happend
  · exact h
  · exact h
  · exact h
  · exact h
  · have hsame := append_failed (by simpa using happend)
    rw [hsame]
    exact h
  · push Not at hfull
    have hfits : (w.conns c).outBuf.length + (wsBuildFrame opcode data).length ≤ maxWsOutQueue := by
      omega
    exact bounded_append_flush hnotify (hsafe.quiet halloc) h hfits

omit hnotify in
/-- The close frame is two bytes more than the bound of an open connection. -/
theorem append_closeFrame_length {c : ConnId} (h : (w.conns c).outBuf.length ≤ maxWsOutQueue) :
    ((World.append c closeFrame w).2.conns c).outBuf.length ≤ maxWsOutQueue + 2 := by
  rcases append_self c closeFrame w with hsame | ⟨cap, hqueued⟩
  · rw [hsame]
    omega
  · rw [hqueued]
    simpa [Conn.queued, closeFrame] using h

theorem bounded_wsClose (hsafe : Safe lossless w) {c : ConnId} (h : (w.conns c).Bounded) :
    ((World.wsClose notify c w).conns c).Bounded := by
  have hself := w.modify_self c fun x => { x with isClosing := true }
  rw [World.wsClose]
  dsimp only
  split_ifs with happart hsock
  · exact h
  · have hopen : (w.conns c).isClosing = false := by
      by_contra hclosing
      exact happart (.inr (by simpa using hclosing))
    generalize hw' : (w.modify c fun x => { x with isClosing := true }) = w' at hself ⊢
    have hsafe' : Safe lossless w' := hw' ▸ hsafe
    have hqueue : Quiet lossless (allBut c) w' (World.append c closeFrame w').2 :=
      quiet_append c closeFrame w'
    refine bounded_flush hnotify (hsafe'.quiet hqueue) ⟨fun hopen' => ?_, ?_⟩
    · have hclosing := (hqueue.steps.later c).isClosing (by rw [hself])
      simp [hclosing] at hopen'
    · refine append_closeFrame_length ?_
      rw [hself]
      exact h.open_le hopen
  · rw [hself]
    exact ⟨fun hopen => by simp at hopen, h.le⟩

theorem bounded_wsCloseChecked (hsafe : Safe lossless w) {c : ConnId} (h : (w.conns c).Bounded) :
    ((World.wsCloseChecked notify c w).2.conns c).Bounded := by
  have hqueue : Quiet lossless (allBut c) w (World.append c closeFrame w).2 :=
    quiet_append c closeFrame w
  rw [World.wsCloseChecked]
  dsimp only
  split_ifs with happart hsock happend
  · exact h
  · exact h
  · have hsame := append_failed (by simpa using happend)
    rw [hsame]
    exact h
  · have hopen : (w.conns c).isClosing = false := by
      by_contra hclosing
      exact happart (.inr (by simpa using hclosing))
    have hlen := append_closeFrame_length (h.open_le hopen)
    have hclose : Quiet lossless (allBut c) (World.append c closeFrame w).2
        ((World.append c closeFrame w).2.modify c fun x => { x with isClosing := true }) :=
      quiet_edit c _ (Conn.edit_closing _) fun h => h
    refine bounded_flush hnotify ((hsafe.quiet hqueue).quiet hclose) ?_
    rw [World.modify_self]
    exact ⟨fun hopen' => by simp at hopen', hlen⟩

/-- **A call keeps the bound**, if a `ws_send` fits. -/
theorem bounded_exec (hsafe : Safe lossless w) {c : ConnId} (op : WsOp) (hfits : op.Fits c w)
    (h : (w.conns c).Bounded) : (((op.event c).exec notify w).conns c).Bounded := by
  cases op with
  | send msg => exact bounded_wsSend hnotify hsafe h hfits
  | sendText text => exact bounded_wsSendLimited hnotify hsafe _ _ text h
  | sendBinary data => exact bounded_wsSendLimited hnotify hsafe _ _ data h
  | sendPong data => exact bounded_wsSendLimited hnotify hsafe _ _ data h
  | close => exact bounded_wsClose hnotify hsafe h
  | closeChecked => exact bounded_wsCloseChecked hnotify hsafe h
  | writable => exact bounded_flush hnotify hsafe h

end Calls

theorem SendsFit.take {notify : ConnId → World → World} {c : ConnId} {w : World} {ops : List WsOp}
    (h : SendsFit notify c w ops) (n : ℕ) : SendsFit notify c w (ops.take n) := by
  induction ops generalizing w n with
  | nil => simpa using h
  | cons op ops ih =>
      cases n with
      | zero => trivial
      | succ n => exact ⟨h.1, ih h.2 n⟩

/-- A run of calls on one connection keeps the bound. -/
theorem bounded_run (onWsClose : OnWsClose) (depth : ℕ) {w : World} {c : ConnId} (ops : List WsOp)
    (hfits : SendsFit (World.notifyWsClose onWsClose depth) c w ops) (h : (w.conns c).Bounded) :
    ((run onWsClose depth w (ops.map (WsOp.event c))).conns c).Bounded := by
  have hnotify : Notifies False (World.notifyWsClose onWsClose depth) :=
    notifies_notifyWsClose onWsClose depth
  induction ops generalizing w with
  | nil => exact h
  | cons op ops ih =>
      exact ih hfits.2 (bounded_exec hnotify (fun h => h.elim) op hfits.1 h)

/-- **The bound of the WebSocket queue.** In every run of calls on a connection that starts with an
empty queue, whatever the socket takes, the queue has never more than `MAX_WS_OUT_QUEUE` and one
close frame, if every frame of `ws_send` fits. -/
theorem ws_queue_bounded (onWsClose : OnWsClose) (depth : ℕ) (w : World) (c : ConnId)
    (hempty : (w.conns c).outBuf = []) (ops : List WsOp)
    (hfits : SendsFit (World.notifyWsClose onWsClose depth) c w ops) (n : ℕ) :
    ((run onWsClose depth w ((ops.take n).map (WsOp.event c))).conns c).outBuf.length ≤
      maxWsOutQueue + 2 := by
  have hbounded : (w.conns c).Bounded := by
    refine ⟨fun _ => ?_, ?_⟩ <;> simp [hempty]
  exact (bounded_run onWsClose depth _ (hfits.take n) hbounded).le

/-- A browser opens a WebSocket connection and reads nothing. -/
def slowReader : World :=
  run (fun _ _ => .done) 0 (World.new [] [] [] [])
    [.accept [true], .readable 0 [.request true true (fun _ => .done) (fun _ => .done) true [] false]]

theorem slowReader_conn :
    (slowReader.conns 0).mode = .ws ∧ (slowReader.conns 0).isClosing = false ∧
      (slowReader.conns 0).sockOpen = true ∧ (slowReader.conns 0).outBuf = [] ∧
      slowReader.sends = [] ∧ slowReader.allocs = [] := by
  decide +kernel

theorem ws_queue_bounded_slowReader :
    (slowReader.conns 0).outBuf = [] ∧
      ((run (fun _ _ => .done) 0 slowReader
        (([.send [0x68, 0x69], .close].take 2).map (WsOp.event 0))).conns 0).outBuf.length ≤
        maxWsOutQueue + 2 := by
  have hempty := slowReader_conn.2.2.2.1
  have hfits : SendsFit (World.notifyWsClose (fun _ _ => .done) 0) 0 slowReader
      [.send [0x68, 0x69], .close] := by
    refine ⟨fun _ _ => ?_, trivial, trivial⟩
    rw [hempty]
    decide
  exact ⟨hempty, ws_queue_bounded (fun _ _ => .done) 0 slowReader 0 hempty _ hfits 2⟩

/-- With memory enough, `append_out_buf` succeeds. -/
theorem append_succeeds {w : World} {c : ConnId} {data : Bytes} (hallocs : w.allocs = [])
    (hlen : data.length ≤ sizeMax - (w.conns c).outBuf.length) :
    ∃ cap, (World.append c data w).2.conns c = (w.conns c).queued data cap ∧
      (World.append c data w).2.sends = w.sends := by
  have hwith (w : World) (hlen : data.length ≤ sizeMax - (w.conns c).outBuf.length) :
      ∃ cap, (World.appendWith c data true w).2.conns c = (w.conns c).queued data cap ∧
        (World.appendWith c data true w).2.sends = w.sends := by
    obtain ⟨cap, hsome⟩ := Conn.appendOutBuf_true hlen
    refine ⟨cap, ?_⟩
    rw [World.appendWith, hsome]
    exact ⟨w.modify_self c fun _ => (w.conns c).queued data cap, rfl⟩
  rw [World.append]
  split_ifs
  · have hok : w.alloc.1 = true := by simp [World.alloc, hallocs]
    dsimp only
    rw [hok]
    exact hwith w.alloc.2 hlen
  · exact hwith w hlen

/-- A call of `ws_send` on a connection whose socket takes nothing. -/
theorem wsSend_blocked {notify : ConnId → World → World} (hnotify : Notifies False notify)
    {w : World} {c : ConnId} {msg : Bytes} (hmode : (w.conns c).mode = .ws)
    (hclosing : (w.conns c).isClosing = false) (hsock : (w.conns c).sockOpen = true)
    (hsends : w.sends = []) (hallocs : w.allocs = [])
    (hlen : (wsBuildTextFrame msg).length ≤ sizeMax - (w.conns c).outBuf.length) :
    ((World.wsSend notify c msg w).2.conns c).outBuf =
      (w.conns c).outBuf ++ wsBuildTextFrame msg := by
  have hsafe {w : World} : Safe False w := fun h => h.elim
  have hok : w.alloc.1 = true := by simp [World.alloc, hallocs]
  have hsend : (World.wsSend notify c msg w).2 =
      World.flush notify c (World.append c (wsBuildTextFrame msg) w.alloc.2).2 := by
    simp [World.wsSend, hmode, hclosing, hsock, hok]
  have hallocs' : w.alloc.2.allocs = [] := by simp [World.alloc, hallocs]
  obtain ⟨cap, hconn, hsends'⟩ := append_succeeds hallocs' hlen
  rw [hsend]
  generalize (World.append c (wsBuildTextFrame msg) w.alloc.2).2 = w' at hconn hsends' ⊢
  have hsock' : (w'.conns c).sockOpen = true := by
    rw [hconn]
    exact hsock
  rw [(flush_flushed hnotify hsafe hsock').outBuf hnotify hsafe, sendQueue_self, hsends']
  have hnone : w.alloc.2.sends = [] := hsends
  rw [hnone, Conn.sent, sendLoop_nil, hconn]
  rfl

theorem wsBuildTextFrame_length {msg : Bytes} (h : 65535 < msg.length) :
    (wsBuildTextFrame msg).length = msg.length + 10 := by
  rw [wsBuildTextFrame, frameHeader, if_neg (by omega), if_neg (by omega), List.length_append]
  simp only [List.length_cons, List.length_nil]
  omega

theorem slowReader_exceeds {msg : Bytes} (hmsg : msg.length = maxWsOutQueue) :
    maxWsOutQueue + 2 <
      ((run (fun _ _ => .done) 0 slowReader [WsOp.event 0 (.send msg)]).conns 0).outBuf.length := by
  obtain ⟨hmode, hclosing, hsock, hempty, hsends, hallocs⟩ := slowReader_conn
  have hframe : (wsBuildTextFrame msg).length = maxWsOutQueue + 10 := by
    rw [wsBuildTextFrame_length (hmsg ▸ by decide), hmsg]
  have hlen : (wsBuildTextFrame msg).length ≤ sizeMax - (slowReader.conns 0).outBuf.length := by
    rw [hempty, hframe]
    decide
  have hblocked := wsSend_blocked (notifies_notifyWsClose (fun _ _ => .done) 0) hmode hclosing hsock
    hsends hallocs hlen
  rw [hempty, List.nil_append] at hblocked
  show maxWsOutQueue + 2 < ((World.wsSend _ 0 msg slowReader).2.conns 0).outBuf.length
  rw [hblocked, hframe]
  omega

/-- A message of two mebibytes is queued whole. -/
theorem ws_send_exceeds_bound :
    (slowReader.conns 0).mode = .ws ∧ (slowReader.conns 0).outBuf = [] ∧
      ¬((run (fun _ _ => .done) 0 slowReader
        [WsOp.event 0 (.send (.replicate maxWsOutQueue 0x61))]).conns 0).outBuf.length ≤
          maxWsOutQueue + 2 :=
  ⟨slowReader_conn.1, slowReader_conn.2.2.2.1,
    Nat.not_le.mpr (slowReader_exceeds List.length_replicate)⟩

end Server
