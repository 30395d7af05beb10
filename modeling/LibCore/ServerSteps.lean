import LibCore.ServerWorld
import Mathlib.Logic.Relation

/-!
# The HTTP Server: What Its Functions Can Do

Every function of the server is a chain of small steps (`Micro`): a connection changes without
leaving its place, it is announced as closed, it is shut down, it leaves the list, the loop is
stopped. Invariants are kept step by step. In a `lossless` chain no queued output is dropped: a
connection is shut down with an empty queue, unless its peer is gone or its request is refused. A
chain is lossless where the socket and the backend report no error (`Safe`) and the conditions of
each function hold; every other chain is one with `lossless := False`.

Callbacks run in the middle of a shutdown. They reach connections through the `ws_*` functions only,
which leave a connection alone that is closing or not in WebSocket mode. `Quiet` says that such
connections come back as they were, so a shutdown finds its connection again after the callback.

## Main results

* `notifyWsClose_quiet`: whatever `on_ws_close` does, it is quiet.
* `connShutdown_quiet`, `flush_quiet`, `wsCall_quiet`, `onReadable_steps` and the other functions.
-/

open CString

namespace Server

/-! ### Connections -/

/-- The queue, its history and the cached flags of the registration agree. -/
structure Conn.Coherent (x : Conn) : Prop where
  fits : x.Fits
  stream : x.discarded = false → x.wire ++ x.outBuf = x.appended
  interest : x.interest =
    if x.closeWriteOnlyRegistered then ⟨false, true⟩ else ⟨true, x.isWriteRegistered⟩
  writeOnly : x.closeWriteOnlyRegistered = true → x.isClosing = true

theorem Conn.coherent_new : Conn.new.Coherent where
  fits := ⟨Nat.le_refl 0, by decide⟩
  stream _ := rfl
  interest := rfl
  writeOnly h := by simp [Conn.new] at h

/-- A change of a connection that leaves its place in the list and its announcement alone. -/
structure Conn.Edit (x y : Conn) : Prop where
  next : y.next = x.next
  prev : y.prev = x.prev
  server : y.server = x.server
  shutdownDone : y.shutdownDone = x.shutdownDone
  wsCloseNotified : y.wsCloseNotified = x.wsCloseNotified
  isClosing : x.isClosing = true → y.isClosing = true
  mode : x.mode = .ws → y.mode = .ws
  pending : y.backendRemovePending = true → x.backendRemovePending = true ∨ y.isClosing = true
  discarded : y.discarded = x.discarded
  coherent : x.Coherent → y.Coherent

/-- A connection that callbacks leave alone. -/
def Conn.Apart (x : Conn) : Prop := x.isClosing = true ∨ x.mode = .http

/-- A connection whose socket is closed is on its way out. -/
def Conn.SockOk (x : Conn) : Prop :=
  x.sockOpen = false → x.server = false ∨ x.shutdownDone = true ∨ x.backendRemovePending = true

/-- The same connection up to its links, its announcement and its user data. -/
def Conn.Same (x y : Conn) : Prop :=
  y = { x with
    next := y.next, prev := y.prev, wsCloseNotified := y.wsCloseNotified,
    wsUserData := y.wsUserData }

theorem Conn.Same.refl (x : Conn) : x.Same x := rfl

theorem Conn.Same.trans {x y z : Conn} (h : x.Same y) (h' : y.Same z) : x.Same z := by
  rw [Conn.Same] at h h' ⊢
  rw [h']
  rw [h]

theorem Conn.Same.apart {x y : Conn} (h : x.Same y) (hx : x.Apart) : y.Apart := by
  rw [Conn.Same] at h
  rw [h]
  exact hx

theorem Conn.Same.sockOk {x y : Conn} (h : x.Same y) (hx : x.SockOk) : y.SockOk := by
  rw [Conn.Same] at h
  rw [h]
  exact hx

/-! ### Steps -/

namespace World

@[simp] theorem modify_self (w : World) (c : ConnId) (f : Conn → Conn) :
    (w.modify c f).conns c = f (w.conns c) := by
  simp [modify]

theorem modify_other (w : World) {c d : ConnId} (h : d ≠ c) (f : Conn → Conn) :
    (w.modify c f).conns d = w.conns d := by
  simp [modify, h]

theorem modify_modify (w : World) (c : ConnId) (f g : Conn → Conn) :
    (w.modify c f).modify c g = w.modify c fun x => g (f x) := by
  simp [modify]

end World

/-- A step of the server. -/
inductive Micro (lossless : Prop) (w : World) : World → Prop
  /-- A connection changes. -/
  | edit (c : ConnId) (f : Conn → Conn) (h : (w.conns c).Edit (f (w.conns c))) :
      Micro lossless w (w.modify c f)
  /-- The server changes, and not its list, its connections or its history. -/
  | server (w' : World) (hconns : w'.conns = w.conns) (hnext : w'.nextConn = w.nextConn)
      (hhead : w'.connsHead = w.connsHead) (hdeferred : w'.deferred = w.deferred)
      (hcloses : w'.wsCloses = w.wsCloses) (hshutdowns : w'.shutdowns = w.shutdowns)
      (hstops : w'.stops = w.stops) : Micro lossless w w'
  /-- A connection is announced as closed. -/
  | announce (c : ConnId) (hmode : (w.conns c).mode = .ws)
      (hnotified : (w.conns c).wsCloseNotified = false) (called : Bool)
      (hcalled : called = true → (w.conns c).server = true) :
      Micro lossless w { w.modify c fun x => { x with wsCloseNotified := true } with
        wsCloses := if called then w.wsCloses ++ [c] else w.wsCloses }
  /-- A connection is shut down. -/
  | shutdown (c : ConnId) (cause : Cause) (hdone : (w.conns c).shutdownDone = false)
      (hempty : lossless → cause ≠ .lost → cause ≠ .rejected → (w.conns c).outBuf = []) :
      Micro lossless w { w.modify c fun x => { x with isClosing := true } with
        shutdowns := w.shutdowns ++
          [⟨c, cause, (w.conns c).outBuf, (w.conns c).wire, (w.conns c).appended⟩] }
  /-- A connection leaves the list. -/
  | leave (c : ConnId) (hdone : (w.conns c).shutdownDone = false)
      (hclosing : (w.conns c).isClosing = true ∨ (w.conns c).backendRemovePending = true) :
      Micro lossless w (w.leave c)
  /-- Output is dropped. -/
  | discard (c : ConnId) (hdone : lossless → (w.conns c).shutdownDone = true) :
      Micro lossless w (w.modify c fun x => { x with outBuf := [], discarded := true })
  /-- The loop is stopped. -/
  | stop (hlistener : w.listener = false) (hhead : w.connsHead = none) (hdrain : w.drainCount = 0) :
      Micro lossless w { w with
        running := false
        stops := w.stops ++ [⟨w.listener, w.connsHead, w.drainCount⟩] }

/-- A chain of steps. -/
abbrev Steps (lossless : Prop) : World → World → Prop := Relation.ReflTransGen (Micro lossless)

/-- The socket and the backend report no error, as far as that matters. -/
def Safe (lossless : Prop) (w : World) : Prop :=
  lossless → (∀ r ∈ w.sends, r.Healthy) ∧ ∀ ok ∈ w.modifies, ok = true

/-- A chain of steps that uses up answers, leaves alone the connections of `P` that are apart, and
gives up every connection whose socket is closed. -/
structure Quiet (lossless : Prop) (P : ConnId → Prop) (w w' : World) : Prop where
  steps : Steps lossless w w'
  same : ∀ c, P c → (w.conns c).Apart → (w.conns c).Same (w'.conns c)
  sends : w'.sends ⊆ w.sends
  modifies : w'.modifies ⊆ w.modifies
  sock : ∀ c, (w.conns c).SockOk → (w'.conns c).SockOk

/-- Every connection. -/
def everyConn : ConnId → Prop := fun _ => True

/-- Every connection but one. -/
def allBut (c : ConnId) : ConnId → Prop := fun d => d ≠ c

/-- No connection. -/
def nobody : ConnId → Prop := fun _ => False

section Quiet

variable {lossless : Prop} {P : ConnId → Prop} {w w' w'' : World}

theorem Quiet.refl (w : World) : Quiet lossless P w w where
  steps := .refl
  same _ _ _ := .refl _
  sends := List.Subset.refl _
  modifies := List.Subset.refl _
  sock _ h := h

theorem Quiet.trans (h : Quiet lossless P w w') (h' : Quiet lossless P w' w'') :
    Quiet lossless P w w'' where
  steps := h.steps.trans h'.steps
  same c hc hapart :=
    (h.same c hc hapart).trans (h'.same c hc ((h.same c hc hapart).apart hapart))
  sends := List.Subset.trans h'.sends h.sends
  modifies := List.Subset.trans h'.modifies h.modifies
  sock c hc := h'.sock c (h.sock c hc)

theorem Quiet.weaken {Q : ConnId → Prop} (h : Quiet lossless P w w') (hPQ : ∀ c, Q c → P c) :
    Quiet lossless Q w w' where
  steps := h.steps
  same c hc hapart := h.same c (hPQ c hc) hapart
  sends := h.sends
  modifies := h.modifies
  sock := h.sock

theorem Quiet.allBut (h : Quiet lossless everyConn w w') (c : ConnId) :
    Quiet lossless (allBut c) w w' := h.weaken fun _ _ => trivial

theorem Quiet.nobody (h : Quiet lossless P w w') : Quiet lossless nobody w w' :=
  h.weaken fun _ hc => hc.elim

theorem Safe.quiet (hsafe : Safe lossless w) (h : Quiet lossless P w w') : Safe lossless w' :=
  fun hl => ⟨fun r hr => (hsafe hl).1 r (h.sends hr), fun ok hok => (hsafe hl).2 ok (h.modifies hok)⟩

/-- A change of the server alone. -/
theorem quiet_server (hconns : w'.conns = w.conns) (hnext : w'.nextConn = w.nextConn)
    (hhead : w'.connsHead = w.connsHead) (hdeferred : w'.deferred = w.deferred)
    (hcloses : w'.wsCloses = w.wsCloses) (hshutdowns : w'.shutdowns = w.shutdowns)
    (hstops : w'.stops = w.stops) (hsends : w'.sends ⊆ w.sends)
    (hmodifies : w'.modifies ⊆ w.modifies) : Quiet lossless P w w' where
  steps := .single (.server w' hconns hnext hhead hdeferred hcloses hshutdowns hstops)
  same c _ _ := by
    rw [hconns]
    exact .refl _
  sends := hsends
  modifies := hmodifies
  sock c h := by
    rw [hconns]
    exact h

theorem sockOk_modify (c : ConnId) {f : Conn → Conn}
    (hf : (w.conns c).SockOk → (f (w.conns c)).SockOk) (d : ConnId) (h : (w.conns d).SockOk) :
    ((w.modify c f).conns d).SockOk := by
  by_cases hdc : d = c
  · subst hdc
    rw [World.modify_self]
    exact hf h
  · rw [World.modify_other w hdc]
    exact h

/-- A change of one connection. -/
theorem quiet_edit (c : ConnId) (f : Conn → Conn) (h : (w.conns c).Edit (f (w.conns c)))
    (hsock : (w.conns c).SockOk → (f (w.conns c)).SockOk) :
    Quiet lossless (allBut c) w (w.modify c f) where
  steps := .single (.edit c f h)
  same d hd _ := by
    rw [World.modify_other w hd]
    exact .refl _
  sends := List.Subset.refl _
  modifies := List.Subset.refl _
  sock := sockOk_modify c hsock

/-- What closes the socket of a connection, before a chain that gives the connection up. -/
theorem Quiet.afterClose {c : ConnId} (hsteps : Steps lossless w w')
    (hother : ∀ d, d ≠ c → w'.conns d = w.conns d) (hsends : w'.sends ⊆ w.sends)
    (hmodifies : w'.modifies ⊆ w.modifies) (h : Quiet lossless (Server.allBut c) w' w'')
    (hsock : (w.conns c).SockOk → (w''.conns c).SockOk) :
    Quiet lossless (Server.allBut c) w w'' where
  steps := hsteps.trans h.steps
  same d hd hapart := by
    have hsame := hother d hd
    rw [← hsame] at hapart ⊢
    exact h.same d hd hapart
  sends := List.Subset.trans h.sends hsends
  modifies := List.Subset.trans h.modifies hmodifies
  sock d hd := by
    by_cases hdc : d = c
    · subst hdc
      exact hsock hd
    · exact h.sock d (by rw [hother d hdc]; exact hd)

end Quiet

namespace World

/-! ### Leaving the list -/

/-- The connections after `remove_conn_from_server`. -/
theorem removeConnFromServer_conns (w : World) (c d : ConnId) :
    (w.removeConnFromServer c).conns d =
      if (w.conns c).server = false then w.conns d
      else if d = c then { w.conns c with server := false, next := none, prev := none }
      else { w.conns d with
        next := if (w.conns c).prev = some d then (w.conns c).next else (w.conns d).next
        prev := if (w.conns c).next = some d then (w.conns c).prev else (w.conns d).prev } := by
  rw [removeConnFromServer]
  cases hserver : (w.conns c).server with
  | false => simp
  | true =>
      by_cases hdc : d = c
      · subst hdc
        simp only [Bool.not_true, Bool.false_eq_true, if_false, if_true, modify_self]
        cases hprev : (w.conns d).prev <;> cases hnext : (w.conns d).next <;>
          simp only [modify, Function.update_apply] <;> split_ifs <;> simp_all
      · simp only [Bool.not_true, Bool.false_eq_true, if_false, hdc, modify_other _ hdc]
        cases hprev : (w.conns c).prev <;> cases hnext : (w.conns c).next <;>
          simp only [modify, Function.update_apply] <;> split_ifs <;> simp_all

/-- Only the links and the head change. -/
theorem removeConnFromServer_eq (w : World) (c : ConnId) :
    w.removeConnFromServer c = { w with
      conns := (w.removeConnFromServer c).conns
      connsHead := (w.removeConnFromServer c).connsHead } := by
  rw [removeConnFromServer]
  dsimp only
  split
  · rfl
  · cases (w.conns c).prev with
    | some p => cases (w.conns c).next <;> rfl
    | none =>
        cases (w.conns c).next <;> dsimp only <;> split_ifs <;> rfl

theorem leave_eq (w : World) (c : ConnId) :
    w.leave c = { w with
      conns := (w.leave c).conns
      connsHead := (w.leave c).connsHead
      deferred := w.deferred ++ [c] } := by
  have h := removeConnFromServer_eq
    (w.modify c fun x => { x with shutdownDone := true, backendRemovePending := false }) c
  rw [leave, deferRelease, h]
  rfl

/-- The connection that leaves. -/
theorem leave_self (w : World) (c : ConnId) :
    (w.leave c).conns c =
      if (w.conns c).server = false then
        { w.conns c with shutdownDone := true, backendRemovePending := false }
      else { w.conns c with
        shutdownDone := true, backendRemovePending := false, server := false, next := none,
        prev := none } := by
  simp only [leave, deferRelease, removeConnFromServer_conns, modify_self, if_true]

/-- The other connections, when one leaves. -/
theorem leave_other (w : World) {c d : ConnId} (h : d ≠ c) :
    (w.leave c).conns d =
      if (w.conns c).server = false then w.conns d
      else { w.conns d with
        next := if (w.conns c).prev = some d then (w.conns c).next else (w.conns d).next
        prev := if (w.conns c).next = some d then (w.conns c).prev else (w.conns d).prev } := by
  simp only [leave, deferRelease, removeConnFromServer_conns, modify_self, modify_other _ h, h,
    if_false]

theorem leave_same (w : World) {c d : ConnId} (h : d ≠ c) :
    (w.conns d).Same ((w.leave c).conns d) := by
  rw [leave_other w h]
  split_ifs <;> rfl

end World

section Shutdown

variable {lossless : Prop} {w : World} {notify : ConnId → World → World}

theorem quiet_leave {c : ConnId} (hdone : (w.conns c).shutdownDone = false)
    (hclosing : (w.conns c).isClosing = true ∨ (w.conns c).backendRemovePending = true) :
    Quiet lossless (allBut c) w (w.leave c) where
  steps := .single (.leave c hdone hclosing)
  same _ hd _ := w.leave_same hd
  sends := by
    rw [World.leave_eq]
    exact List.Subset.refl _
  modifies := by
    rw [World.leave_eq]
    exact List.Subset.refl _
  sock d hd := by
    by_cases hdc : d = c
    · subst hdc
      rw [World.leave_self]
      split_ifs <;> exact fun _ => .inr (.inl rfl)
    · exact (w.leave_same hdc).sockOk hd

/-- `maybe_finish_shutdown` stops the loop of an empty server only. -/
theorem quiet_maybeFinishShutdown {P : ConnId → Prop} (w : World) :
    Quiet lossless P w w.maybeFinishShutdown := by
  rw [World.maybeFinishShutdown]
  dsimp only
  split_ifs with hdown hempty hrunning
  · exact .refl w
  · have htimer : Quiet lossless P w { w with shutdownRetryTimer := false } :=
      quiet_server rfl rfl rfl rfl rfl rfl rfl (List.Subset.refl _) (List.Subset.refl _)
    refine htimer.trans
      ⟨?_, fun _ _ _ => .refl _, List.Subset.refl _, List.Subset.refl _, fun _ h => h⟩
    obtain ⟨hlistener, hhead, hdrain⟩ := hempty
    exact .single (.stop hlistener hhead hdrain)
  · exact quiet_server rfl rfl rfl rfl rfl rfl rfl (List.Subset.refl _) (List.Subset.refl _)
  · exact .refl w

theorem World.maybeFinishShutdown_conns (w : World) : w.maybeFinishShutdown.conns = w.conns := by
  rw [maybeFinishShutdown]
  dsimp only
  split_ifs <;> rfl

/-- What is asked of `notify_ws_close`: its callbacks leave connections alone that are closing or
not in WebSocket mode. -/
def Notifies (lossless : Prop) (notify : ConnId → World → World) : Prop :=
  ∀ c w, Safe lossless w → Quiet lossless everyConn w (notify c w)

theorem quiet_shutDown {c : ConnId} {cause : Cause} (hdone : (w.conns c).shutdownDone = false)
    (hempty : lossless → cause ≠ .lost → cause ≠ .rejected → (w.conns c).outBuf = []) :
    Quiet lossless (allBut c) w (w.shutDown cause c) where
  steps := .single (.shutdown c cause hdone hempty)
  same d hd _ := by
    have hsame : (w.shutDown cause c).conns d = w.conns d := by
      rw [World.shutDown]
      exact w.modify_other hd fun x => { x with isClosing := true }
    rw [hsame]
    exact .refl _
  sends := List.Subset.refl _
  modifies := List.Subset.refl _
  sock := sockOk_modify c (f := fun x => { x with isClosing := true }) fun h => h

theorem quiet_announce (hnotify : Notifies lossless notify) (hsafe : Safe lossless w) (c : ConnId) :
    Quiet lossless everyConn w (World.announce notify c w) := by
  rw [World.announce]
  split_ifs
  · exact hnotify c w hsafe
  · exact .refl w

theorem quiet_eventBackendRemove {P : ConnId → Prop} (w : World) :
    Quiet lossless P w w.eventBackendRemove.2 :=
  quiet_server rfl rfl rfl rfl rfl rfl rfl (List.Subset.refl _) (List.Subset.refl _)

theorem quiet_leaveOrWait {c : ConnId} (hdone : (w.conns c).shutdownDone = false)
    (hclosing : (w.conns c).isClosing = true) :
    Quiet lossless (allBut c) w (w.leaveOrWait c) := by
  rw [World.leaveOrWait]
  refine (quiet_eventBackendRemove w).trans ?_
  have hleave : Quiet lossless (allBut c) w.eventBackendRemove.2 (w.eventBackendRemove.2.leave c) :=
    quiet_leave hdone (.inl hclosing)
  dsimp only
  split_ifs
  · exact hleave.trans (quiet_maybeFinishShutdown _)
  · exact hleave
  · exact quiet_edit c _ ⟨rfl, rfl, rfl, rfl, rfl, id, id, fun _ => .inr hclosing, rfl,
      fun h => ⟨h.fits, h.stream, h.interest, h.writeOnly⟩⟩ fun _ _ => .inr (.inr rfl)

/-- The connection itself after that. -/
theorem leaveOrWait_self (w : World) (c : ConnId) :
    ∃ done pending server next prev, (done || pending) = true ∧
      (w.leaveOrWait c).conns c = { w.conns c with
        shutdownDone := done, backendRemovePending := pending, server := server, next := next,
        prev := prev } := by
  have hleave : ∃ done pending server next prev, (done || pending) = true ∧
      (w.eventBackendRemove.2.leave c).conns c = { w.conns c with
        shutdownDone := done, backendRemovePending := pending, server := server, next := next,
        prev := prev } := by
    rw [World.leave_self]
    split_ifs
    · exact ⟨true, false, (w.conns c).server, (w.conns c).next, (w.conns c).prev, rfl, rfl⟩
    · exact ⟨true, false, false, none, none, rfl, rfl⟩
  rw [World.leaveOrWait]
  dsimp only
  split_ifs
  · rwa [World.maybeFinishShutdown_conns]
  · exact hleave
  · refine ⟨(w.conns c).shutdownDone, true, (w.conns c).server, (w.conns c).next, (w.conns c).prev,
      Bool.or_true _, ?_⟩
    rw [World.modify_self]
    rfl

/-- `conn_shutdown` leaves other connections alone that are apart. -/
theorem quiet_connShutdown (hnotify : Notifies lossless notify) (hsafe : Safe lossless w)
    {cause : Cause} {c : ConnId} (hempty : lossless → (w.conns c).shutdownDone = false →
      cause ≠ .lost → cause ≠ .rejected → (w.conns c).outBuf = []) :
    Quiet lossless (allBut c) w (World.connShutdown notify cause c w) := by
  rw [World.connShutdown]
  split_ifs with hleaving
  · exact .refl w
  · obtain ⟨hdone, -⟩ : (w.conns c).shutdownDone = false ∧ (w.conns c).backendRemovePending = false := by
      simpa using hleaving
    have hmark : Quiet lossless (allBut c) w (w.shutDown cause c) :=
      quiet_shutDown hdone fun hl => hempty hl hdone
    have hself : (w.shutDown cause c).conns c = { w.conns c with isClosing := true } :=
      w.modify_self c fun x => { x with isClosing := true }
    have hannounce := quiet_announce hnotify (hsafe.quiet hmark) c
    -- the callbacks have left the connection as it was marked
    have hsame := hannounce.same c trivial (.inl (by rw [hself]))
    rw [hself, Conn.Same] at hsame
    refine hmark.trans ((hannounce.allBut c).trans (quiet_leaveOrWait ?_ ?_))
    · rw [hsame]
      exact hdone
    · rw [hsame]

/-- The connection itself after `conn_shutdown`. -/
theorem connShutdown_self (hnotify : Notifies lossless notify) (hsafe : Safe lossless w)
    (cause : Cause) (c : ConnId) :
    ∃ done pending server next prev notified session closing, (done || pending) = true ∧
      (World.connShutdown notify cause c w).conns c = { w.conns c with
        shutdownDone := done, backendRemovePending := pending, server := server, next := next,
        prev := prev, wsCloseNotified := notified, wsUserData := session, isClosing := closing } := by
  rw [World.connShutdown]
  split_ifs with hleaving
  · exact ⟨_, _, _, _, _, _, _, _, hleaving, rfl⟩
  · have hself : (w.shutDown cause c).conns c = { w.conns c with isClosing := true } :=
      w.modify_self c fun x => { x with isClosing := true }
    have hsafe' : Safe lossless (w.shutDown cause c) := hsafe
    have hsame := (quiet_announce hnotify hsafe' c).same c trivial (.inl (by rw [hself]))
    rw [hself, Conn.Same] at hsame
    obtain ⟨done, pending, server, next, prev, hor, hconn⟩ :=
      leaveOrWait_self (World.announce notify c (w.shutDown cause c)) c
    rw [hsame] at hconn
    exact ⟨done, pending, server, next, prev, _, _, true, hor, hconn⟩

theorem connShutdown_sockOk (hnotify : Notifies lossless notify) (hsafe : Safe lossless w)
    (cause : Cause) (c : ConnId) : ((World.connShutdown notify cause c w).conns c).SockOk := by
  obtain ⟨done, pending, _, _, _, _, _, _, hor, hself⟩ := connShutdown_self hnotify hsafe cause c
  rw [hself]
  exact fun _ => .inr (by simpa using hor)

/-! ### Flushing -/

theorem eventBackendModify_healthy (hsafe : Safe lossless w) (hl : lossless) (c : ConnId)
    (interest : Interest) : (w.eventBackendModify c interest).1 = true := by
  have hok : w.modifies.headD true = true := by
    cases hmodifies : w.modifies with
    | nil => rfl
    | cons ok rest => exact (hsafe hl).2 ok (by simp [hmodifies])
  rw [World.eventBackendModify]
  simp only [hok, if_true]

/-- A registration, when it goes well and when it does not. -/
theorem register_spec (hnotify : Notifies lossless notify) (hsafe : Safe lossless w) {c : ConnId}
    {interest : Interest} {flags : Conn → Conn}
    (hedit : (w.conns c).Edit (flags { w.conns c with interest := interest }))
    (hsock : (w.conns c).SockOk → (flags { w.conns c with interest := interest }).SockOk) :
    Quiet lossless (allBut c) w (World.register notify c interest flags w).2 ∧
      if (World.register notify c interest flags w).1 then
        (World.register notify c interest flags w).2.conns c =
          flags { w.conns c with interest := interest }
      else ¬lossless ∧ ∃ w', Quiet lossless (allBut c) w w' ∧ w'.conns = w.conns ∧
        (World.register notify c interest flags w).2 =
          World.connShutdown notify .modifyFailed c w' := by
  have hanswer : Quiet lossless (allBut c) w { w with modifies := w.modifies.tail } :=
    quiet_server rfl rfl rfl rfl rfl rfl rfl (List.Subset.refl _) (List.tail_subset _)
  rw [World.register]
  by_cases hok : w.modifies.headD true = true
  · have hmodify : w.eventBackendModify c interest = (true,
        World.modify { w with modifies := w.modifies.tail } c
          fun x => { x with interest := interest }) := by
      exact if_pos hok
    rw [hmodify]
    simp only [Bool.not_true, Bool.false_eq_true, if_false, if_true, World.modify_modify]
    refine ⟨hanswer.trans (quiet_edit c _ hedit hsock), ?_⟩
    exact World.modify_self _ c fun x => flags { x with interest := interest }
  · have hmodify : w.eventBackendModify c interest =
        (false, { w with modifies := w.modifies.tail }) := by
      exact if_neg hok
    have hlossy : ¬lossless := fun hl => by
      have hhealthy := eventBackendModify_healthy hsafe hl c interest
      rw [hmodify] at hhealthy
      exact absurd hhealthy (by simp)
    rw [hmodify]
    refine ⟨hanswer.trans (quiet_connShutdown hnotify (hsafe.quiet hanswer) fun hl => ?_), ?_⟩
    · exact absurd hl hlossy
    · exact ⟨hlossy, _, hanswer, rfl, rfl⟩

/-- Write interest is registered exactly while there is output, and read interest exactly while the
connection is not closing. -/
structure Conn.Registered (x : Conn) : Prop where
  write : x.interest.write = true ↔ x.outBuf ≠ []
  read : x.interest.read = false ↔ x.isClosing = true

/-- A connection after its registration went well. -/
def Conn.Updated (x y : Conn) : Prop :=
  (∃ interest write writeOnly, y = { x with
    interest := interest, isWriteRegistered := write, closeWriteOnlyRegistered := writeOnly }) ∧
  (x.Coherent → x.server = true → x.outBuf ≠ [] ∨ x.isClosing = false → y.Registered)

/-- How the registration part of a flush ends: it is done, or the connection is shut down. -/
def Updates (lossless : Prop) (notify : ConnId → World → World) (c : ConnId) (w : World)
    (r : Bool × World) : Prop :=
  Quiet lossless (allBut c) w r.2 ∧
    if r.1 then (w.conns c).Updated (r.2.conns c)
    else ¬lossless ∧ ∃ w', Quiet lossless (allBut c) w w' ∧ w'.conns = w.conns ∧
      r.2 = World.connShutdown notify .modifyFailed c w'

theorem register_updates (hnotify : Notifies lossless notify) (hsafe : Safe lossless w) {c : ConnId}
    {interest : Interest} {flags : Conn → Conn} {write writeOnly : Bool}
    (hflags : flags { w.conns c with interest := interest } = { w.conns c with
      interest := interest, isWriteRegistered := write, closeWriteOnlyRegistered := writeOnly })
    (hinterest : (w.conns c).Coherent →
      interest = if writeOnly then ⟨false, true⟩ else ⟨true, write⟩)
    (hclosing : (w.conns c).Coherent → writeOnly = true → (w.conns c).isClosing = true)
    (hwrite : interest.write = true ↔ (w.conns c).outBuf ≠ [])
    (hread : interest.read = false ↔ (w.conns c).isClosing = true) :
    Updates lossless notify c w (World.register notify c interest flags w) := by
  have hedit : (w.conns c).Edit (flags { w.conns c with interest := interest }) := by
    rw [hflags]
    exact ⟨rfl, rfl, rfl, rfl, rfl, id, id, fun h => .inl h, rfl,
      fun h => ⟨h.fits, h.stream, hinterest h, hclosing h⟩⟩
  have hsock (h : (w.conns c).SockOk) : (flags { w.conns c with interest := interest }).SockOk := by
    rw [hflags]
    exact h
  obtain ⟨hquiet, hself⟩ := register_spec hnotify hsafe hedit hsock
  refine ⟨hquiet, ?_⟩
  split_ifs at hself ⊢
  · rw [hself, hflags]
    exact ⟨⟨_, _, _, rfl⟩, fun _ _ _ => ⟨hwrite, hread⟩⟩
  · exact hself

theorem updateInterest_updates (hnotify : Notifies lossless notify) (hsafe : Safe lossless w)
    (c : ConnId) : Updates lossless notify c w (World.updateInterest notify c w) := by
  have hstay (h : (w.conns c).Coherent → (w.conns c).server = true →
      (w.conns c).outBuf ≠ [] ∨ (w.conns c).isClosing = false → (w.conns c).Registered) :
      Updates lossless notify c w (true, w) :=
    ⟨.refl w, ⟨_, _, _, rfl⟩, h⟩
  -- without the flag the registration is that of an open connection
  have hopen (hclosing : ¬(w.conns c).isClosing = true) (h : (w.conns c).Coherent) :
      (w.conns c).closeWriteOnlyRegistered = false := by
    by_contra honly
    exact hclosing (h.writeOnly (by simpa using honly))
  rw [World.updateInterest]
  split_ifs with hserver hout hclosing honly hwrite hdrop
  · exact hstay fun _ h => by simp [h] at hserver
  · exact register_updates hnotify hsafe rfl (fun _ => rfl) (fun _ _ => hclosing) (by simp [hout])
      (by simp [hclosing])
  · refine hstay fun h _ _ => ?_
    have hwriteOnly : (w.conns c).closeWriteOnlyRegistered = true := by simpa using honly
    have hinterest := h.interest
    rw [hwriteOnly] at hinterest
    exact ⟨by simp [hinterest, hout], by simp [hinterest, hclosing]⟩
  · refine register_updates hnotify hsafe rfl (fun h => ?_) (fun h honly => ?_)
      (by simp [hout]) (by simp [hclosing])
    · rw [hopen hclosing h]
      rfl
    · exact h.writeOnly honly
  · refine hstay fun h _ _ => ?_
    have hregistered : (w.conns c).isWriteRegistered = true := by simpa using hwrite
    have hinterest := h.interest
    rw [hopen hclosing h, hregistered] at hinterest
    exact ⟨by simp [hinterest, hout], by simp [hinterest, hclosing]⟩
  · obtain ⟨-, hclosing⟩ : (w.conns c).isWriteRegistered = true ∧ (w.conns c).isClosing = false := by
      simpa using hdrop
    exact register_updates hnotify hsafe rfl (fun _ => rfl) (fun _ h => by simp at h)
      (by simpa using hout) (by simp [hclosing])
  · refine hstay fun h _ hor => ?_
    have hclosing : (w.conns c).isClosing = false := hor.resolve_left hout
    have hregistered : (w.conns c).isWriteRegistered = false := by
      simpa [hclosing] using hdrop
    have hinterest := h.interest
    rw [hopen (by simp [hclosing]) h, hregistered] at hinterest
    exact ⟨by simpa [hinterest] using hout, by simp [hinterest, hclosing]⟩

/-- The connection after the loop of a flush. -/
def Conn.sent (x : Conn) (r : Sending) : Conn :=
  { x with
    outBuf := r.out, wire := x.wire ++ r.wire, sockOpen := x.sockOpen && r.error ≠ some true }

theorem Conn.edit_sent (x : Conn) (rs : List SendResult) : x.Edit (x.sent (sendLoop rs x.outBuf)) := by
  have hwire := sendLoop_wire rs x.outBuf
  refine ⟨rfl, rfl, rfl, rfl, rfl, id, id, fun h => .inl h, rfl, fun h => ⟨?_, ?_, h.interest, h.writeOnly⟩⟩
  · have hlen := congrArg List.length hwire
    rw [List.length_append] at hlen
    obtain ⟨hcap, hmax⟩ := h.fits
    exact ⟨show (sendLoop rs x.outBuf).out.length ≤ x.outCap by omega,
      show (sendLoop rs x.outBuf).out.length ≤ sizeMax by omega⟩
  · intro hdiscarded
    show x.wire ++ (sendLoop rs x.outBuf).wire ++ (sendLoop rs x.outBuf).out = x.appended
    rw [List.append_assoc, hwire]
    exact h.stream hdiscarded

theorem sendQueue_steps (c : ConnId) (w : World) : Steps lossless w (World.sendQueue c w).2 := by
  have hedit : Micro lossless w
      (w.modify c fun x => x.sent (sendLoop w.sends (w.conns c).outBuf)) :=
    .edit c _ ((w.conns c).edit_sent w.sends)
  exact .tail (.single hedit) (.server _ rfl rfl rfl rfl rfl rfl rfl)

theorem sendQueue_other {c d : ConnId} (h : d ≠ c) (w : World) :
    (World.sendQueue c w).2.conns d = w.conns d :=
  w.modify_other h fun x => x.sent (sendLoop w.sends (w.conns c).outBuf)

theorem Safe.sendQueue (hsafe : Safe lossless w) (c : ConnId) :
    Safe lossless (World.sendQueue c w).2 :=
  fun hl => ⟨fun r hr => (hsafe hl).1 r (sendLoop_rest _ _ hr), (hsafe hl).2⟩

theorem sendQueue_self (c : ConnId) (w : World) :
    (World.sendQueue c w).2.conns c = (w.conns c).sent (sendLoop w.sends (w.conns c).outBuf) :=
  w.modify_self c fun x => x.sent (sendLoop w.sends (w.conns c).outBuf)

/-- How a flush goes on after its loop: it returns, it shuts the connection down, or the
registration is up to date and nothing is left to do. -/
inductive Flushed (lossless : Prop) (notify : ConnId → World → World) (c : ConnId) (w : World) :
    World → Prop
  | unserved (h : (w.conns c).server = false) : Flushed lossless notify c w w
  | closed (cause : Cause) (w' : World) (hquiet : Quiet lossless (allBut c) w w')
      (hbuf : (w'.conns c).outBuf = (w.conns c).outBuf)
      (hempty : lossless → (w'.conns c).outBuf = []) :
      Flushed lossless notify c w (World.connShutdown notify cause c w')
  | registered (w' : World) (hsock : (w.conns c).sockOpen = true)
      (hquiet : Quiet lossless (allBut c) w w') (hupdated : (w.conns c).Updated (w'.conns c))
      (hopen : ¬((w'.conns c).isClosing = true ∧ (w'.conns c).outBuf = [] ∧
        (w'.conns c).backendRemovePending = false ∧ (w'.conns c).server = true)) :
      Flushed lossless notify c w w'

theorem flush_flushed (hnotify : Notifies lossless notify) (hsafe : Safe lossless w) {c : ConnId}
    (hsock : (w.conns c).sockOpen = true) :
    Flushed lossless notify c (World.sendQueue c w).2 (World.flush notify c w) := by
  have hsafe' := hsafe.sendQueue c
  rw [World.flush]
  simp only [hsock, Bool.not_true, Bool.false_eq_true, if_false]
  split_ifs with herror hserver hgoes
  · refine .closed .sendFailed _ (.refl _) rfl fun hl => ?_
    have hnone := sendLoop_error (w.conns c).outBuf (hsafe hl).1
    rw [World.sendQueue, hnone] at herror
    simp at herror
  · exact .unserved (by simpa using hserver)
  · obtain ⟨hquiet, hself⟩ := updateInterest_updates hnotify hsafe' c
    rw [if_pos hgoes] at hself
    rw [World.closeDrained]
    split_ifs with hdrained
    · obtain ⟨⟨⟨hclosing, hout⟩, hpending⟩, hserver⟩ := by simpa using hdrained
      refine .closed .drained _ hquiet ?_ fun _ => hout
      obtain ⟨⟨interest, write, writeOnly, hconn⟩, -⟩ := hself
      rw [hconn]
    · refine .registered _ ?_ hquiet hself (by simpa [and_assoc] using hdrained)
      have hnone : (sendLoop w.sends (w.conns c).outBuf).error = none := by
        simpa [World.sendQueue] using herror
      rw [sendQueue_self]
      simp [Conn.sent, hsock, hnone]
  · obtain ⟨hquiet, hself⟩ := updateInterest_updates hnotify hsafe' c
    rw [if_neg hgoes] at hself
    obtain ⟨hlossy, w', hquiet', hconns, hresult⟩ := hself
    rw [hresult]
    exact .closed .modifyFailed w' hquiet' (by rw [hconns]) fun hl => absurd hl hlossy

theorem Flushed.quiet {c : ConnId} {w' : World} (h : Flushed lossless notify c w w')
    (hnotify : Notifies lossless notify) (hsafe : Safe lossless w) :
    Quiet lossless (Server.allBut c) w w' := by
  cases h with
  | unserved h => exact .refl _
  | closed cause w' hquiet hbuf hempty =>
      exact hquiet.trans (quiet_connShutdown hnotify (hsafe.quiet hquiet) fun hl _ _ _ => hempty hl)
  | registered w' hsock hquiet hupdated hopen => exact hquiet

theorem Flushed.outBuf {c : ConnId} {w' : World} (h : Flushed lossless notify c w w')
    (hnotify : Notifies lossless notify) (hsafe : Safe lossless w) :
    (w'.conns c).outBuf = (w.conns c).outBuf := by
  cases h with
  | unserved h => rfl
  | closed cause w' hquiet hbuf hempty =>
      obtain ⟨_, _, _, _, _, _, _, _, -, hself⟩ :=
        connShutdown_self hnotify (hsafe.quiet hquiet) cause c
      rw [hself]
      exact hbuf
  | registered w' hsock hquiet hupdated hopen =>
      obtain ⟨⟨_, _, _, hself⟩, -⟩ := hupdated
      rw [hself]

theorem Flushed.sockOk {c : ConnId} {w' : World} (h : Flushed lossless notify c w w')
    (hnotify : Notifies lossless notify) (hsafe : Safe lossless w) : (w'.conns c).SockOk := by
  cases h with
  | unserved h => exact fun _ => .inl h
  | closed cause w' hquiet hbuf hempty =>
      exact connShutdown_sockOk hnotify (hsafe.quiet hquiet) cause c
  | registered w' hsock hquiet hupdated hopen =>
      obtain ⟨⟨_, _, _, hself⟩, -⟩ := hupdated
      rw [hself]
      exact fun hclosed => by simp [hsock] at hclosed

theorem Flushed.registered_of_open {c : ConnId} {w' : World} (h : Flushed lossless notify c w w')
    (hnotify : Notifies lossless notify) (hsafe : Safe lossless w) (hcoherent : (w.conns c).Coherent)
    (hserver : (w.conns c).shutdownDone = false → (w.conns c).server = true)
    (hdone : (w'.conns c).shutdownDone = false)
    (hpending : (w'.conns c).backendRemovePending = false) : (w'.conns c).Registered := by
  cases h with
  | unserved h => simp [hserver hdone] at h
  | closed cause w' hquiet hbuf hempty =>
      obtain ⟨done, pending, _, _, _, _, _, _, hor, hself⟩ :=
        connShutdown_self hnotify (hsafe.quiet hquiet) cause c
      rw [hself] at hdone hpending
      simp_all
  | registered w' hsock hquiet hupdated hopen =>
      obtain ⟨⟨interest, write, writeOnly, hself⟩, hregistered⟩ := hupdated
      rw [hself] at hdone hpending hopen
      have hserved := hserver hdone
      refine hregistered hcoherent hserved ?_
      by_contra hdrained
      push Not at hdrained
      exact hopen ⟨by simpa using hdrained.2, hdrained.1, hpending, hserved⟩

theorem flush_of_closed {c : ConnId} (hsock : (w.conns c).sockOpen = false) :
    World.flush notify c w = w := by
  rw [World.flush, hsock]
  rfl

/-- A flush leaves other connections alone that are apart. -/
theorem quiet_flush (hnotify : Notifies lossless notify) (hsafe : Safe lossless w) (c : ConnId) :
    Quiet lossless (allBut c) w (World.flush notify c w) := by
  cases hsock : (w.conns c).sockOpen with
  | false =>
      rw [flush_of_closed hsock]
      exact .refl w
  | true =>
      have hflushed := flush_flushed hnotify hsafe hsock
      exact Quiet.afterClose (sendQueue_steps c w) (fun d hd => sendQueue_other hd w)
        (sendLoop_rest _ _) (List.Subset.refl _) (hflushed.quiet hnotify (hsafe.sendQueue c))
        fun _ => hflushed.sockOk hnotify (hsafe.sendQueue c)

/-- A flush takes bytes off the front of the queue. -/
theorem flush_outBuf (hnotify : Notifies lossless notify) (hsafe : Safe lossless w) (c : ConnId) :
    ∃ sent, (w.conns c).outBuf = sent ++ ((World.flush notify c w).conns c).outBuf := by
  cases hsock : (w.conns c).sockOpen with
  | false =>
      rw [flush_of_closed hsock]
      exact ⟨[], rfl⟩
  | true =>
      have hflushed := flush_flushed hnotify hsafe hsock
      rw [hflushed.outBuf hnotify (hsafe.sendQueue c), sendQueue_self]
      exact ⟨_, (sendLoop_wire _ _).symm⟩

/-- After a flush that leaves its connection open, the backend has the interest it needs. -/
theorem flush_registered (hnotify : Notifies lossless notify) (hsafe : Safe lossless w) {c : ConnId}
    (hcoherent : (w.conns c).Coherent)
    (hserver : (w.conns c).shutdownDone = false → (w.conns c).server = true)
    (hsock : (w.conns c).sockOpen = true)
    (hdone : ((World.flush notify c w).conns c).shutdownDone = false)
    (hpending : ((World.flush notify c w).conns c).backendRemovePending = false) :
    ((World.flush notify c w).conns c).Registered := by
  have hedit := (w.conns c).edit_sent w.sends
  refine (flush_flushed hnotify hsafe hsock).registered_of_open hnotify
    (hsafe.sendQueue c) ?_ ?_ hdone hpending
  · rw [sendQueue_self]
    exact hedit.coherent hcoherent
  · rw [sendQueue_self]
    exact hserver

/-! ### The calls of the application -/

theorem quiet_alloc {P : ConnId → Prop} (w : World) : Quiet lossless P w w.alloc.2 :=
  quiet_server rfl rfl rfl rfl rfl rfl rfl (List.Subset.refl _) (List.Subset.refl _)

/-- A connection with more data in its queue. -/
def Conn.queued (x : Conn) (data : Bytes) (cap : ℕ) : Conn :=
  { x with outBuf := x.outBuf ++ data, appended := x.appended ++ data, outCap := cap }

theorem Conn.edit_queued {x : Conn} {data : Bytes} {cap : ℕ}
    (hfits : x.Fits → (x.queued data cap).Fits) : x.Edit (x.queued data cap) := by
  refine ⟨rfl, rfl, rfl, rfl, rfl, id, id, fun h => .inl h, rfl,
    fun h => ⟨hfits h.fits, fun hdiscarded => ?_, h.interest, h.writeOnly⟩⟩
  show x.wire ++ (x.outBuf ++ data) = x.appended ++ data
  rw [← List.append_assoc, h.stream hdiscarded]

theorem quiet_appendWith (c : ConnId) (data : Bytes) (reallocOk : Bool) (w : World) :
    Quiet lossless (allBut c) w (World.appendWith c data reallocOk w).2 := by
  rw [World.appendWith]
  cases hsome : (w.conns c).appendOutBuf reallocOk data with
  | none => exact .refl w
  | some conn =>
      obtain ⟨cap, hconn, hfits⟩ := Conn.appendOutBuf_eq_some hsome
      have hconn' : conn = (w.conns c).queued data cap := hconn
      have hedit : (w.conns c).Edit conn := by
        rw [hconn']
        exact Conn.edit_queued fun h => hconn' ▸ hfits h
      exact quiet_edit c (fun _ => conn) hedit fun h => hconn' ▸ h

theorem appendWith_self (c : ConnId) (data : Bytes) (reallocOk : Bool) (w : World) :
    (World.appendWith c data reallocOk w).2.conns c = w.conns c ∨
      ∃ cap, (World.appendWith c data reallocOk w).2.conns c = (w.conns c).queued data cap := by
  rw [World.appendWith]
  cases hsome : (w.conns c).appendOutBuf reallocOk data with
  | none => exact .inl rfl
  | some conn =>
      obtain ⟨cap, hconn, -⟩ := Conn.appendOutBuf_eq_some hsome
      exact .inr ⟨cap, (w.modify_self c fun _ => conn).trans hconn⟩

theorem quiet_append (c : ConnId) (data : Bytes) (w : World) :
    Quiet lossless (allBut c) w (World.append c data w).2 := by
  rw [World.append]
  split_ifs
  · exact (quiet_alloc w).trans (quiet_appendWith c data _ _)
  · exact quiet_appendWith c data true w

/-- `append_out_buf` puts the data behind the queue, or leaves the connection as it is. -/
theorem append_self (c : ConnId) (data : Bytes) (w : World) :
    (World.append c data w).2.conns c = w.conns c ∨
      ∃ cap, (World.append c data w).2.conns c = (w.conns c).queued data cap := by
  rw [World.append]
  split_ifs
  · exact appendWith_self c data _ _
  · exact appendWith_self c data true w

/-- If `append_out_buf` fails, the queue is as it was. -/
theorem append_failed {c : ConnId} {data : Bytes} (h : (World.append c data w).1 = false) :
    (World.append c data w).2.conns c = w.conns c := by
  have hwith (ok : Bool) (w : World) (h : (World.appendWith c data ok w).1 = false) :
      (World.appendWith c data ok w).2.conns c = w.conns c := by
    rw [World.appendWith] at h ⊢
    cases hsome : (w.conns c).appendOutBuf ok data with
    | none => rfl
    | some conn => simp [hsome] at h
  rw [World.append] at h ⊢
  split_ifs at h ⊢
  · exact hwith _ _ h
  · exact hwith _ _ h

/-- A chain that starts at a connection the callbacks may touch. -/
theorem Quiet.everyConn {c : ConnId} {w' : World} (h : Quiet lossless (Server.allBut c) w w')
    (hc : ¬(w.conns c).Apart) : Quiet lossless Server.everyConn w w' where
  steps := h.steps
  same d _ hapart := by
    by_cases hdc : d = c
    · subst hdc
      exact absurd hapart hc
    · exact h.same d hdc hapart
  sends := h.sends
  modifies := h.modifies
  sock := h.sock

theorem Conn.not_apart {x : Conn} (h : ¬(x.mode ≠ .ws ∨ x.isClosing = true)) : ¬x.Apart := by
  rintro (hclosing | hmode)
  · exact h (.inr hclosing)
  · exact h (.inl (by simp [hmode]))

theorem Conn.edit_closing (x : Conn) : x.Edit { x with isClosing := true } :=
  ⟨rfl, rfl, rfl, rfl, rfl, fun _ => rfl, id, fun h => .inl h, rfl,
    fun h => ⟨h.fits, h.stream, h.interest, fun _ => rfl⟩⟩

/-- A change of a connection that callbacks may see. -/
theorem same_modify (w : World) (c d : ConnId) {f : Conn → Conn} (hf : ∀ x : Conn, x.Same (f x)) :
    (w.conns d).Same ((w.modify c f).conns d) := by
  by_cases hdc : d = c
  · subst hdc
    rw [World.modify_self]
    exact hf _
  · rw [World.modify_other w hdc]
    exact .refl _

section Calls

variable (hnotify : Notifies lossless notify)

include hnotify

/-- Queueing data and flushing. -/
theorem quiet_append_flush (hsafe : Safe lossless w) (c : ConnId) (data : Bytes) :
    Quiet lossless (allBut c) w (World.flush notify c (World.append c data w).2) := by
  have hqueue : Quiet lossless (allBut c) w (World.append c data w).2 := quiet_append c data w
  exact hqueue.trans (quiet_flush hnotify (hsafe.quiet hqueue) c)

theorem quiet_wsSend (hsafe : Safe lossless w) (c : ConnId) (msg : Bytes) :
    Quiet lossless everyConn w (World.wsSend notify c msg w).2 := by
  have halloc : Quiet lossless (allBut c) w w.alloc.2 := quiet_alloc w
  rw [World.wsSend]
  dsimp only
  split_ifs with happart hsock hok
  · exact .refl w
  · exact .refl w
  · exact quiet_alloc w
  · exact (halloc.trans (quiet_append_flush hnotify (hsafe.quiet halloc) c _)).everyConn
      (Conn.not_apart happart)

theorem quiet_wsSendLimited (hsafe : Safe lossless w) (opcode : Ws.Opcode) (maxLen : ℕ) (c : ConnId)
    (data : Bytes) :
    Quiet lossless everyConn w (World.wsSendLimited notify opcode maxLen c data w).2 := by
  have halloc : Quiet lossless (allBut c) w w.alloc.2 := quiet_alloc w
  rw [World.wsSendLimited]
  dsimp only
  split_ifs with happart hlong hok hfull happend
  · exact .refl w
  · exact .refl w
  · exact quiet_alloc w
  · exact quiet_alloc w
  · exact (halloc.trans (quiet_append c _ _)).everyConn (Conn.not_apart happart)
  · exact (halloc.trans (quiet_append_flush hnotify (hsafe.quiet halloc) c _)).everyConn
      (Conn.not_apart happart)

theorem quiet_wsClose (hsafe : Safe lossless w) (c : ConnId) :
    Quiet lossless everyConn w (World.wsClose notify c w) := by
  have hclose : Quiet lossless (allBut c) w (w.modify c fun x => { x with isClosing := true }) :=
    quiet_edit c _ (w.conns c).edit_closing fun h => h
  rw [World.wsClose]
  dsimp only
  split_ifs with happart hsock
  · exact .refl w
  · exact (hclose.trans (quiet_append_flush hnotify (hsafe.quiet hclose) c _)).everyConn
      (Conn.not_apart happart)
  · exact hclose.everyConn (Conn.not_apart happart)

theorem quiet_wsCloseChecked (hsafe : Safe lossless w) (c : ConnId) :
    Quiet lossless everyConn w (World.wsCloseChecked notify c w).2 := by
  have hqueue : Quiet lossless (allBut c) w (World.append c closeFrame w).2 :=
    quiet_append c closeFrame w
  rw [World.wsCloseChecked]
  dsimp only
  split_ifs with happart hsock happend
  · exact .refl w
  · exact .refl w
  · exact hqueue.everyConn (Conn.not_apart happart)
  · have hclose := hqueue.trans
      (quiet_edit c (fun x => { x with isClosing := true }) (Conn.edit_closing _) fun h => h)
    exact (hclose.trans (quiet_flush hnotify (hsafe.quiet hclose) c)).everyConn
      (Conn.not_apart happart)

/-- **A call of a callback is quiet.** -/
theorem quiet_wsCall (hsafe : Safe lossless w) (x : WsCall) :
    Quiet lossless everyConn w (World.wsCall notify x w).2 := by
  cases x with
  | send c msg => exact quiet_wsSend hnotify hsafe c msg
  | sendText c text => exact quiet_wsSendLimited hnotify hsafe _ _ c text
  | sendBinary c data => exact quiet_wsSendLimited hnotify hsafe _ _ c data
  | sendPong c data => exact quiet_wsSendLimited hnotify hsafe _ _ c data
  | close c => exact quiet_wsClose hnotify hsafe c
  | closeChecked c => exact quiet_wsCloseChecked hnotify hsafe c
  | setUserData c session =>
      have hsame (x : Conn) : x.Same { x with wsUserData := session } := rfl
      have hedit (x : Conn) : x.Edit { x with wsUserData := session } :=
        ⟨rfl, rfl, rfl, rfl, rfl, id, id, fun h => .inl h, rfl,
          fun h => ⟨h.fits, h.stream, h.interest, h.writeOnly⟩⟩
      exact ⟨.single (.edit c (fun x => { x with wsUserData := session }) (hedit _)),
        fun d _ _ => same_modify w c d hsame, List.Subset.refl _, List.Subset.refl _,
        fun d hd => (same_modify w c d hsame).sockOk hd⟩

end Calls

/-- A script of calls that are quiet is quiet. -/
theorem quiet_runScript {C : Type} {exec : C → World → Bool × World} {P : ConnId → Prop}
    (hexec : ∀ x w, Safe lossless w → Quiet lossless P w (exec x w).2) (s : Script C)
    (hsafe : Safe lossless w) : Quiet lossless P w (World.runScript exec s w) := by
  induction s generalizing w with
  | done => exact .refl w
  | call x k ih =>
      have hcall := hexec x w hsafe
      exact hcall.trans (ih _ _ (hsafe.quiet hcall))

theorem quiet_announced {c : ConnId} (called : Bool)
    (hcalled : called = true → (w.conns c).server = true)
    (h : ¬((w.conns c).mode ≠ .ws ∨ (w.conns c).wsCloseNotified = true)) :
    Quiet lossless everyConn w { w.modify c fun x => { x with wsCloseNotified := true } with
      wsCloses := if called then w.wsCloses ++ [c] else w.wsCloses } := by
  obtain ⟨hmode, hnotified⟩ : (w.conns c).mode = .ws ∧ (w.conns c).wsCloseNotified = false := by
    simpa using h
  have hsame (x : Conn) : x.Same { x with wsCloseNotified := true } := rfl
  exact ⟨.single (.announce c hmode hnotified called hcalled), fun d _ _ => same_modify w c d hsame,
    List.Subset.refl _, List.Subset.refl _, fun d hd => (same_modify w c d hsame).sockOk hd⟩

/-- **Whatever `on_ws_close` does, it is quiet**: by induction on how deep its calls nest. -/
theorem notifies_notifyWsClose (onWsClose : OnWsClose) (depth : ℕ) :
    Notifies lossless (World.notifyWsClose onWsClose depth) := by
  induction depth with
  | zero => exact fun c w _ => .refl w
  | succ depth ih =>
      intro c w hsafe
      rw [World.notifyWsClose]
      dsimp only
      split_ifs with hskip hserver
      · exact .refl w
      · rw [World.modify_self] at hserver
        refine (quiet_announced true (fun _ => hserver) hskip).trans (quiet_runScript ?_ _ ?_)
        · exact fun x w hsafe => quiet_wsCall ih hsafe x
        · exact hsafe
      · exact quiet_announced false (fun h => by simp at h) hskip

/-! ### Walks -/

theorem quiet_sweepOne (c : ConnId) (w : World) : Quiet lossless (allBut c) w (w.sweepOne c) := by
  rw [World.sweepOne]
  dsimp only
  split_ifs with hwaits
  · obtain ⟨hpending, hdone⟩ : (w.conns c).backendRemovePending = true ∧
        (w.conns c).shutdownDone = false := by simpa using hwaits
    have hleave : Quiet lossless (allBut c) w.eventBackendRemove.2 (w.eventBackendRemove.2.leave c) :=
      quiet_leave hdone (.inr hpending)
    exact (quiet_eventBackendRemove w).trans hleave
  · exact quiet_eventBackendRemove w
  · exact .refl w

theorem sweepOne_outBuf (c : ConnId) (w : World) :
    ((w.sweepOne c).conns c).outBuf = (w.conns c).outBuf := by
  rw [World.sweepOne]
  dsimp only
  split_ifs
  · rw [World.leave_self]
    split_ifs <;> rfl
  · rfl
  · rfl

/-- A walk with quiet rounds, along which something stays true. -/
theorem quiet_walk {P : ConnId → Prop} {J : World → Prop} {handle : ConnId → World → World}
    (hround : ∀ c w, Safe lossless w → J w → Quiet lossless P w (handle c w) ∧ J (handle c w))
    (hsafe : Safe lossless w) (hJ : J w) :
    Quiet lossless P w (w.walk handle).2 ∧ J (w.walk handle).2 := by
  have hwalk (fuel : ℕ) (curr : Option ConnId) : ∀ w, Safe lossless w → J w →
      Quiet lossless P w (Dll.walk World.nextOf handle fuel curr w).2 ∧
        J (Dll.walk World.nextOf handle fuel curr w).2 := by
    induction fuel generalizing curr with
    | zero => exact fun w _ hJ => ⟨.refl w, hJ⟩
    | succ fuel ih =>
        intro w hsafe hJ
        cases curr with
        | none => exact ⟨.refl w, hJ⟩
        | some c =>
            obtain ⟨hquiet, hJ'⟩ := hround c w hsafe hJ
            obtain ⟨hrest, hJ''⟩ := ih (World.nextOf w c) _ (hsafe.quiet hquiet) hJ'
            exact ⟨hquiet.trans hrest, hJ''⟩
  exact hwalk _ _ w hsafe hJ

theorem quiet_closeListener {P : ConnId → Prop} (w : World) :
    Quiet lossless P w w.closeListener.2 := by
  have hclose (w' : World) : Quiet lossless P w' { w' with listener := false } :=
    quiet_server rfl rfl rfl rfl rfl rfl rfl (List.Subset.refl _) (List.Subset.refl _)
  rw [World.closeListener]
  dsimp only
  split_ifs
  · exact (quiet_eventBackendRemove w).trans (hclose _)
  · exact quiet_eventBackendRemove w

/-- `HttpServer_sweep_closing`, along which something stays true. -/
theorem quiet_sweepClosing {J : World → Prop} (hsafe : Safe lossless w) (hJ : J w)
    (hlistener : ∀ w, J w → J w.closeListener.2) (hsweep : ∀ c w, J w → J (w.sweepOne c)) :
    Quiet lossless nobody w w.sweepClosing ∧ J w.sweepClosing := by
  have hclose (p : Bool) : Quiet lossless nobody w (if p then w.closeListener.2 else w) ∧
      J (if p then w.closeListener.2 else w) := by
    split_ifs
    · exact ⟨quiet_closeListener w, hlistener w hJ⟩
    · exact ⟨.refl w, hJ⟩
  rw [World.sweepClosing]
  obtain ⟨hquiet, hJ'⟩ := hclose (w.listener && w.shuttingDown)
  obtain ⟨hwalk, hJ''⟩ := quiet_walk
    (fun c w _ hJ => ⟨(quiet_sweepOne c w).nobody, hsweep c w hJ⟩) (hsafe.quiet hquiet) hJ'
  exact ⟨hquiet.trans hwalk, hJ''⟩

theorem quiet_finish (hsafe : Safe lossless w) :
    Quiet lossless nobody w w.sweepClosing.maybeFinishShutdown := by
  obtain ⟨hsweep, -⟩ := quiet_sweepClosing (J := fun _ => True) hsafe trivial (fun _ _ => trivial)
    fun _ _ _ => trivial
  exact hsweep.trans (quiet_maybeFinishShutdown _)

end Shutdown

end Server
