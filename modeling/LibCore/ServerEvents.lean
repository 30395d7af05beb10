import LibCore.ServerSteps

/-!
# The HTTP Server: What Events Do

Each event of a server is a chain of steps, and an accepted connection is a new one in front of the
list. So whatever holds of a new server, survives such chains and survives an accept holds in every
run (`run_induct`).

An event is lossless if it meets its condition (`Event.Delivers`): the handler of a request without
keep-alive leaves no output, a graceful shutdown finds no output on an HTTP connection, and its
deadline finds nothing to drop.

## Main results

* `quiet_exec`: an event that accepts nothing is a chain of steps.
* `run_induct`: invariants of runs.
-/

open CString

namespace Server

/-! ### What no step undoes -/

/-- A later state of a connection. -/
structure Conn.Later (x y : Conn) : Prop where
  isClosing : x.isClosing = true → y.isClosing = true
  shutdownDone : x.shutdownDone = true → y.shutdownDone = true
  mode : x.mode = .ws → y.mode = .ws

theorem Conn.Later.refl (x : Conn) : x.Later x := ⟨id, id, id⟩

theorem Conn.Later.trans {x y z : Conn} (h : x.Later y) (h' : y.Later z) : x.Later z :=
  ⟨h'.isClosing ∘ h.isClosing, h'.shutdownDone ∘ h.shutdownDone, h'.mode ∘ h.mode⟩

theorem Conn.Later.notDone {x y : Conn} (h : x.Later y) (hy : y.shutdownDone = false) :
    x.shutdownDone = false := by
  cases hx : x.shutdownDone with
  | false => rfl
  | true => rw [← hy, h.shutdownDone hx]

theorem Conn.Later.http {x y : Conn} (h : x.Later y) (hy : y.mode = .http) : x.mode = .http := by
  cases hx : x.mode with
  | http => rfl
  | ws => rw [← hy, h.mode hx]

theorem Conn.Edit.later {x y : Conn} (h : x.Edit y) : x.Later y :=
  ⟨h.isClosing, fun hdone => h.shutdownDone ▸ hdone, h.mode⟩

section Steps

variable {lossless : Prop} {w w' : World}

theorem later_modify (w : World) (c d : ConnId) (f : Conn → Conn)
    (h : (w.conns c).Later (f (w.conns c))) : (w.conns d).Later ((w.modify c f).conns d) := by
  by_cases hdc : d = c
  · subst hdc
    rwa [World.modify_self]
  · rw [World.modify_other w hdc]
    exact .refl _

theorem Micro.later (h : Micro lossless w w') (c : ConnId) : (w.conns c).Later (w'.conns c) := by
  cases h with
  | edit d f h => exact later_modify w d c f h.later
  | server w' hconns =>
      rw [hconns]
      exact .refl _
  | announce d hmode hnotified called hcalled =>
      exact later_modify w d c (fun x => { x with wsCloseNotified := true }) ⟨id, id, id⟩
  | shutdown d cause hdone hempty =>
      exact later_modify w d c (fun x => { x with isClosing := true }) (w.conns d).edit_closing.later
  | leave d hdone hclosing =>
      by_cases hcd : c = d
      · subst hcd
        rw [World.leave_self]
        split_ifs <;> exact ⟨id, fun _ => rfl, id⟩
      · have hsame := w.leave_same hcd
        rw [Conn.Same] at hsame
        rw [hsame]
        exact ⟨id, id, id⟩
  | discard d hdone =>
      exact later_modify w d c (fun x => { x with outBuf := [], discarded := true }) ⟨id, id, id⟩
  | stop hlistener hhead hdrain => exact .refl _

theorem Steps.later (h : Steps lossless w w') (c : ConnId) : (w.conns c).Later (w'.conns c) := by
  induction h with
  | refl => exact .refl _
  | tail _ hstep ih => exact ih.trans (hstep.later c)

end Steps

/-! ### Conditions -/

namespace World

section Conditions

variable (notify : ConnId → World → World)

/-- The handler of every request without keep-alive leaves no output on its connection. -/
def AnswersInFull (c : ConnId) : List ReadRound → World → Prop
  | [], _ | .wouldBlock :: _, _ | .lost _ :: _, _ | .rejected :: _, _ => True
  | .again :: rs, w => AnswersInFull c rs w
  | .request keepAlive upgraded handler _ _ _ more :: rs, w =>
      if (w.conns c).mode = .ws then AnswersInFull c rs w
      else
        let w := w.modify c fun x => { x with keepAlive := keepAlive }
        if (w.conns c).server && w.shuttingDown then True
        else
          let w := runScript (dispatchCall notify c) (handler w) w
          if upgraded then True
          else if !(w.conns c).keepAlive then (w.conns c).outBuf = []
          else if more then AnswersInFull c rs w
          else True
  | .frames fs :: rs, w =>
      if (w.conns c).mode = .ws then
        let (ok, w) := processWsFrames notify c fs w
        if !ok || w.leaving c then True else AnswersInFull c rs w
      else AnswersInFull c rs w

/-- No connection in HTTP mode has output. -/
def HttpDrained (w : World) : Prop :=
  ∀ c, (w.conns c).shutdownDone = false → (w.conns c).mode = .http → (w.conns c).outBuf = []

/-- No connection has output or could get some. -/
def AllDrained (w : World) : Prop :=
  ∀ c, (w.conns c).shutdownDone = false → (w.conns c).outBuf = [] ∧ (w.conns c).Apart

end Conditions

end World

/-- The condition for an event to drop no output. -/
def Event.Delivers (notify : ConnId → World → World) (w : World) : Event → Prop
  | .readable c rounds => w.leaving c = false → World.AnswersInFull notify c rounds w
  | .retryTick now => w.shuttingDown = true → now - w.shutdownStartedMs > 5000 → w.AllDrained
  | .beginShutdown timerOk _ => w.shuttingDown = false → timerOk = true → w.HttpDrained
  | _ => True

/-! ### Events -/

section Events

variable {lossless : Prop} {w : World} {notify : ConnId → World → World}
  (hnotify : Notifies lossless notify)

include hnotify

theorem quiet_lost (hsafe : Safe lossless w) (c : ConnId) :
    Quiet lossless (allBut c) w (World.connShutdown notify .lost c w) :=
  quiet_connShutdown hnotify hsafe fun _ _ h => absurd rfl h

theorem quiet_rejected (hsafe : Safe lossless w) (c : ConnId) :
    Quiet lossless (allBut c) w (World.connShutdown notify .rejected c w) :=
  quiet_connShutdown hnotify hsafe fun _ _ _ h => absurd rfl h

theorem quiet_wsScript (s : Script WsCall) (hsafe : Safe lossless w) :
    Quiet lossless everyConn w (World.runScript (World.wsCall notify) s w) :=
  quiet_runScript (fun x _ hsafe => quiet_wsCall hnotify hsafe x) s hsafe

theorem quiet_processWsFrames (c : ConnId) (frames : List World.FrameEvent)
    (hsafe : Safe lossless w) :
    Quiet lossless (allBut c) w (World.processWsFrames notify c frames w).2 := by
  have hclose : Quiet lossless (allBut c) w (World.wsCloseChecked notify c w).2 :=
    (quiet_wsCloseChecked hnotify hsafe c).allBut c
  induction frames generalizing w with
  | nil => exact .refl w
  | cons frame frames ih =>
      cases frame with
      | invalid =>
          rw [World.processWsFrames]
          dsimp only
          split_ifs
          · exact hclose.trans (quiet_lost hnotify (hsafe.quiet hclose) c)
          · exact hclose
      | close =>
          rw [World.processWsFrames]
          dsimp only
          split_ifs
          · exact hclose.trans (quiet_lost hnotify (hsafe.quiet hclose) c)
          · exact hclose
      | ping payload =>
          have hpong : Quiet lossless (allBut c) w (World.wsSendPong notify c payload w).2 :=
            (quiet_wsSendLimited hnotify hsafe _ _ c payload).allBut c
          rw [World.processWsFrames]
          dsimp only
          split_ifs
          · exact hpong.trans (quiet_lost hnotify (hsafe.quiet hpong) c)
          · exact hpong
          · exact hpong
          · have hsafe' := hsafe.quiet hpong
            exact hpong.trans (ih hsafe' ((quiet_wsCloseChecked hnotify hsafe' c).allBut c))
      | message script =>
          have hscript (p : Bool) : Quiet lossless (allBut c) w
              (if p then World.runScript (World.wsCall notify) (script w) w else w) := by
            split_ifs
            · exact (quiet_wsScript hnotify _ hsafe).allBut c
            · exact .refl w
          have hrest (w' : World) (hquiet : Quiet lossless (allBut c) w w') :
              Quiet lossless (allBut c) w
                (if w'.leaving c then (false, w')
                  else World.processWsFrames notify c frames w').2 := by
            split_ifs
            · exact hquiet
            · have hsafe' := hsafe.quiet hquiet
              exact hquiet.trans (ih hsafe' ((quiet_wsCloseChecked hnotify hsafe' c).allBut c))
          rw [World.processWsFrames]
          exact hrest _ (hscript _)
      | noMemory => exact quiet_lost hnotify hsafe c

theorem quiet_dispatchCall (c : ConnId) (x : World.DispatchCall) (hsafe : Safe lossless w) :
    Quiet lossless (allBut c) w (World.dispatchCall notify c x w).2 := by
  cases x with
  | ws x => exact (quiet_wsCall hnotify hsafe x).allBut c
  | appendSend data => exact quiet_append c data w
  | flush => exact quiet_flush hnotify hsafe c

theorem quiet_upgrade (c : ConnId) (onWsOpen : World → Script WsCall) (memory : Bool)
    (frames : List World.FrameEvent) (hsafe : Safe lossless w) :
    Quiet lossless (allBut c) w (World.upgrade notify c onWsOpen memory frames w) := by
  have hmode : Quiet lossless (allBut c) w
      (w.modify c fun x => { x with mode := .ws, keepAlive := true }) :=
    quiet_edit c _ ⟨rfl, rfl, rfl, rfl, rfl, id, fun _ => rfl, fun h => .inl h, rfl,
      fun h => ⟨h.fits, h.stream, h.interest, h.writeOnly⟩⟩ fun h => h
  have hsafe' := hsafe.quiet hmode
  refine hmode.trans ?_
  rw [World.upgrade]
  dsimp only
  generalize (w.modify c fun x => { x with mode := .ws, keepAlive := true }) = w' at hsafe' ⊢
  have hopen (p : Bool) : Quiet lossless (allBut c) w'
      (if p then World.runScript (World.wsCall notify) (onWsOpen w') w' else w') := by
    split_ifs
    · exact (quiet_wsScript hnotify _ hsafe').allBut c
    · exact .refl w'
  have hframes (w'' : World) (hquiet : Quiet lossless (allBut c) w' w'') (p : Bool) :
      Quiet lossless (allBut c) w'
        (if p then w'' else (World.processWsFrames notify c frames w'').2) := by
    split_ifs
    · exact hquiet
    · exact hquiet.trans (quiet_processWsFrames hnotify c frames (hsafe'.quiet hquiet))
  cases memory with
  | false => exact quiet_lost hnotify hsafe' c
  | true => exact hframes _ (hopen _) _

/-- `HttpConnection_on_readable` is a chain of steps. -/
theorem quiet_readRounds (c : ConnId) (rounds : List World.ReadRound) (hsafe : Safe lossless w)
    (hanswers : lossless → World.AnswersInFull notify c rounds w) :
    Quiet lossless (allBut c) w (World.readRounds notify c rounds w) := by
  induction rounds generalizing w with
  | nil => exact .refl w
  | cons round rounds ih =>
      cases round with
      | wouldBlock => exact .refl w
      | again => exact ih hsafe hanswers
      | lost closed =>
          have hsafe' : Safe lossless
              (w.modify c fun x => { x with sockOpen := x.sockOpen && !closed }) := hsafe
          refine Quiet.afterClose (.single (.edit c _ ?_)) (fun d hd => w.modify_other hd _)
            (List.Subset.refl _) (List.Subset.refl _) (quiet_lost hnotify hsafe' c) fun _ => ?_
          · exact ⟨rfl, rfl, rfl, rfl, rfl, id, id, fun h => .inl h, rfl,
              fun h => ⟨h.fits, h.stream, h.interest, h.writeOnly⟩⟩
          · exact connShutdown_sockOk hnotify hsafe' .lost c
      | rejected => exact quiet_rejected hnotify hsafe c
      | request keepAlive upgraded handler onWsOpen memory frames more =>
          rw [World.AnswersInFull] at hanswers
          rw [World.readRounds]
          have hkeep : Quiet lossless (allBut c) w
              (w.modify c fun x => { x with keepAlive := keepAlive }) :=
            quiet_edit c _ ⟨rfl, rfl, rfl, rfl, rfl, id, id, fun h => .inl h, rfl,
              fun h => ⟨h.fits, h.stream, h.interest, h.writeOnly⟩⟩ fun h => h
          have hsafe' := hsafe.quiet hkeep
          dsimp only at hanswers ⊢
          generalize (w.modify c fun x => { x with keepAlive := keepAlive }) = w' at *
          have hhandler : Quiet lossless (allBut c) w'
              (World.runScript (World.dispatchCall notify c) (handler w') w') :=
            quiet_runScript (fun x _ hsafe => quiet_dispatchCall hnotify c x hsafe) _ hsafe'
          have hanswered := hkeep.trans hhandler
          have hsafe'' := hsafe'.quiet hhandler
          split_ifs at hanswers ⊢ with hmode hdown hup hka hmore
          · exact ih hsafe hanswers
          · exact hkeep.trans (quiet_rejected hnotify hsafe' c)
          · exact hanswered.trans (quiet_upgrade hnotify c onWsOpen memory frames hsafe'')
          · exact hanswered.trans
              (quiet_connShutdown hnotify hsafe'' fun hl _ _ _ => hanswers hl)
          · exact hanswered.trans (ih hsafe'' hanswers)
          · exact hanswered
      | frames fs =>
          have hframes := quiet_processWsFrames hnotify c fs hsafe
          rw [World.AnswersInFull] at hanswers
          rw [World.readRounds]
          dsimp only at hanswers ⊢
          split_ifs at hanswers ⊢ with hmode hok
          · exact hframes
          · exact hframes.trans (ih (hsafe.quiet hframes) hanswers)
          · exact ih hsafe hanswers

omit hnotify in
/-- A queue in HTTP mode changes only on the connection that is handled. -/
theorem World.HttpDrained.quiet {c : ConnId} {w' : World} (h : w.HttpDrained)
    (hquiet : Quiet lossless (Server.allBut c) w w')
    (hc : (w.conns c).mode = .http → (w'.conns c).outBuf = (w.conns c).outBuf) :
    w'.HttpDrained := by
  intro d hdone hmode
  have hmode' := (hquiet.steps.later d).http hmode
  have hempty := h d ((hquiet.steps.later d).notDone hdone) hmode'
  by_cases hdc : d = c
  · subst hdc
    rw [hc hmode']
    exact hempty
  · have hsame := hquiet.same d hdc (.inr hmode')
    rw [Conn.Same] at hsame
    rw [hsame]
    exact hempty

omit hnotify in
theorem World.AllDrained.quiet {c : ConnId} {w' : World} (h : w.AllDrained)
    (hquiet : Quiet lossless (Server.allBut c) w w')
    (hc : (w.conns c).Apart → (w'.conns c).outBuf = (w.conns c).outBuf ∧ (w'.conns c).Apart) :
    w'.AllDrained := by
  intro d hdone
  obtain ⟨hempty, happart⟩ := h d ((hquiet.steps.later d).notDone hdone)
  by_cases hdc : d = c
  · subst hdc
    obtain ⟨hout, happart'⟩ := hc happart
    exact ⟨hout.trans hempty, happart'⟩
  · have hsame := hquiet.same d hdc happart
    have happart' := hsame.apart happart
    rw [Conn.Same] at hsame
    exact ⟨by rw [hsame]; exact hempty, happart'⟩

theorem connShutdown_outBuf (hsafe : Safe lossless w) (cause : Cause) (c : ConnId) :
    ((World.connShutdown notify cause c w).conns c).outBuf = (w.conns c).outBuf := by
  obtain ⟨_, _, _, _, _, _, _, _, -, hself⟩ := connShutdown_self hnotify hsafe cause c
  rw [hself]

/-- One round of the loop of `HttpServer_begin_shutdown`. -/
theorem quiet_closeForShutdown (c : ConnId) (hsafe : Safe lossless w)
    (hdrained : lossless → w.HttpDrained) :
    Quiet lossless (allBut c) w (World.closeForShutdown notify c w) ∧
      (lossless → (World.closeForShutdown notify c w).HttpDrained) := by
  rw [World.closeForShutdown]
  split_ifs with hmode
  · have hclose := (quiet_wsClose hnotify hsafe c).allBut c
    exact ⟨hclose, fun hl => (hdrained hl).quiet hclose fun h => by simp [h] at hmode⟩
  · have hmark : Quiet lossless (allBut c) w
        (w.modify c fun x => { x with isClosing := true, keepAlive := false }) :=
      quiet_edit c _ ⟨rfl, rfl, rfl, rfl, rfl, fun _ => rfl, id, fun h => .inl h, rfl,
        fun h => ⟨h.fits, h.stream, h.interest, fun _ => rfl⟩⟩ fun h => h
    have hself := w.modify_self c fun x => { x with isClosing := true, keepAlive := false }
    have hsafe' := hsafe.quiet hmark
    have hhttp : (w.conns c).mode = .http := by
      cases hm : (w.conns c).mode with
      | http => rfl
      | ws => exact absurd hm hmode
    have hshutdown : Quiet lossless (allBut c) w (World.connShutdown notify .beginShutdown c
        (w.modify c fun x => { x with isClosing := true, keepAlive := false })) := by
      refine hmark.trans (quiet_connShutdown hnotify hsafe' fun hl hdone _ _ => ?_)
      rw [hself] at hdone ⊢
      exact hdrained hl c hdone hhttp
    refine ⟨hshutdown, fun hl => (hdrained hl).quiet hshutdown fun _ => ?_⟩
    rw [connShutdown_outBuf hnotify hsafe', hself]

/-- One round of the loop of `on_shutdown_retry_tick`. -/
theorem quiet_closeAtDeadline (c : ConnId) (hsafe : Safe lossless w)
    (hdrained : lossless → w.AllDrained) :
    Quiet lossless nobody w (World.closeAtDeadline notify c w) ∧
      (lossless → (World.closeAtDeadline notify c w).AllDrained) := by
  rw [World.closeAtDeadline]
  by_cases hout : (w.conns c).outBuf = []
  · simp only [hout, ne_eq, not_true_eq_false, if_false]
    split_ifs with hdone
    · have hshutdown : Quiet lossless (allBut c) w (World.connShutdown notify .deadline c w) :=
        quiet_connShutdown hnotify hsafe fun _ _ _ _ => hout
      refine ⟨hshutdown.nobody, fun hl => (hdrained hl).quiet hshutdown fun happart => ?_⟩
      obtain ⟨_, _, _, _, _, _, _, closing, -, hself⟩ := connShutdown_self hnotify hsafe .deadline c
      refine ⟨by rw [connShutdown_outBuf hnotify hsafe], ?_⟩
      rcases happart with hclosing | hmode
      · exact .inl ((hshutdown.steps.later c).isClosing hclosing)
      · rw [hself]
        exact .inr hmode
    · exact ⟨.refl w, hdrained⟩
  · -- only a connection that has left may have output here without loss
    have hleft (hl : lossless) : (w.conns c).shutdownDone = true := by
      by_contra hdone
      exact hout (hdrained hl c (by simpa using hdone)).1
    have hdrop : Quiet lossless nobody w
        (w.modify c fun x => { x with outBuf := [], discarded := true }) :=
      ⟨.single (.discard c hleft), fun _ h => h.elim, List.Subset.refl _, List.Subset.refl _,
        sockOk_modify c (f := fun x => { x with outBuf := [], discarded := true }) fun h => h⟩
    have hself := w.modify_self c fun x => { x with outBuf := [], discarded := true }
    simp only [hout, ne_eq, not_false_eq_true, if_true]
    split_ifs with hdone
    · rw [hself] at hdone
      have hlossy : ¬lossless := fun hl => by simp [hleft hl] at hdone
      refine ⟨hdrop.trans (quiet_connShutdown hnotify (hsafe.quiet hdrop) fun hl => ?_).nobody, ?_⟩
      · exact absurd hl hlossy
      · exact fun hl => absurd hl hlossy
    · refine ⟨hdrop, fun hl d hd => ?_⟩
      by_cases hdc : d = c
      · subst hdc
        rw [hself] at hd
        simp [hleft hl] at hd
      · rw [World.modify_other w hdc] at hd ⊢
        exact hdrained hl d hd

theorem quiet_sendToMember (hsafe : Safe lossless w) (room : ℕ) (buf : Bytes) (c : ConnId) :
    Quiet lossless everyConn w (World.sendToMember notify room buf c w) := by
  rw [World.sendToMember]
  split_ifs
  · exact quiet_wsSend hnotify hsafe c buf
  · exact .refl w

theorem quiet_broadcastToRoom (hsafe : Safe lossless w) (room : ℕ) (buf : Bytes) :
    Quiet lossless everyConn w (World.broadcastToRoom notify room buf w) :=
  (quiet_walk (J := fun _ => True)
    (fun c _ hsafe _ => ⟨quiet_sendToMember hnotify hsafe room buf c, trivial⟩) hsafe trivial).1

omit hnotify in
/-- The sweep at the start of a graceful shutdown touches no queue. -/
theorem quiet_enterShutdown (now : UInt64) (hsafe : Safe lossless w)
    (hdrained : lossless → w.HttpDrained) :
    Quiet lossless nobody w (World.enterShutdown now w) ∧
      (lossless → (World.enterShutdown now w).HttpDrained) := by
  have hset : Quiet lossless nobody w { w with
      shuttingDown := true, shutdownStartedMs := now, shutdownRetryTimer := true } :=
    quiet_server rfl rfl rfl rfl rfl rfl rfl (List.Subset.refl _) (List.Subset.refl _)
  have hlistener (w : World) (h : lossless → w.HttpDrained) :
      lossless → w.closeListener.2.HttpDrained := by
    intro hl
    rw [World.closeListener]
    dsimp only
    split_ifs <;> exact h hl
  have hsweep (c : ConnId) (w : World) (h : lossless → w.HttpDrained) :
      lossless → (w.sweepOne c).HttpDrained := by
    intro hl
    have hquiet : Quiet lossless (allBut c) w (w.sweepOne c) := quiet_sweepOne c w
    exact (h hl).quiet hquiet fun _ => sweepOne_outBuf c w
  obtain ⟨hquiet, hdrained'⟩ := quiet_sweepClosing (J := fun w => lossless → w.HttpDrained)
    (hsafe.quiet hset) hdrained hlistener hsweep
  exact ⟨hset.trans hquiet, hdrained'⟩

/-- **Events that accept no connection are chains of steps.** -/
theorem quiet_exec (e : Event) (haccept : ∀ added, e ≠ .accept added) (hsafe : Safe lossless w)
    (hdelivers : lossless → e.Delivers notify w) : Quiet lossless nobody w (e.exec notify w) := by
  cases e with
  | accept added => exact absurd rfl (haccept added)
  | readable c rounds =>
      show Quiet lossless nobody w (World.onReadable notify c rounds w)
      rw [World.onReadable]
      split_ifs with hleaving
      · exact .refl w
      · exact (quiet_readRounds hnotify c rounds hsafe
          fun hl => hdelivers hl (by simpa using hleaving)).nobody
  | writable c => exact (quiet_flush hnotify hsafe c).nobody
  | retryTick now =>
      show Quiet lossless nobody w (World.onShutdownRetryTick notify now w)
      rw [World.onShutdownRetryTick]
      split_ifs with hdown hdeadline
      · exact .refl w
      · have hdrained (hl : lossless) : w.AllDrained := hdelivers hl (by simpa using hdown) hdeadline
        have hwalk : Quiet lossless nobody w (w.walk (World.closeAtDeadline notify)).2 :=
          (quiet_walk (fun c _ hsafe hJ => quiet_closeAtDeadline hnotify c hsafe hJ) hsafe hdrained).1
        exact hwalk.trans (quiet_finish (hsafe.quiet hwalk))
      · exact quiet_finish hsafe
  | wsCall x => exact (quiet_wsCall hnotify hsafe x).nobody
  | broadcastToRoom room buf => exact (quiet_broadcastToRoom hnotify hsafe room buf).nobody
  | drainRetain =>
      exact quiet_server rfl rfl rfl rfl rfl rfl rfl (List.Subset.refl _) (List.Subset.refl _)
  | drainRelease =>
      have hcount : Quiet lossless nobody w { w with drainCount := w.drainCount - 1 } :=
        quiet_server rfl rfl rfl rfl rfl rfl rfl (List.Subset.refl _) (List.Subset.refl _)
      show Quiet lossless nobody w w.drainRelease
      rw [World.drainRelease]
      dsimp only
      split_ifs
      · exact hcount.trans (quiet_finish (hsafe.quiet hcount))
      · exact hcount
  | beginShutdown timerOk now =>
      show Quiet lossless nobody w (World.beginShutdown notify timerOk now w)
      rw [World.beginShutdown]
      split_ifs with hdown hok
      · exact .refl w
      · exact quiet_server rfl rfl rfl rfl rfl rfl rfl (List.Subset.refl _) (List.Subset.refl _)
      · obtain ⟨henter, hdrained⟩ := quiet_enterShutdown now hsafe
          fun hl => hdelivers hl (by simpa using hdown) (by simpa using hok)
        have hwalk : Quiet lossless nobody (World.enterShutdown now w)
            ((World.enterShutdown now w).walk (World.closeForShutdown notify)).2 :=
          (quiet_walk (fun c w hsafe hJ => by
            obtain ⟨hquiet, hJ'⟩ := quiet_closeForShutdown hnotify c hsafe hJ
            exact ⟨hquiet.nobody, hJ'⟩) (hsafe.quiet henter) hdrained).1
        exact (henter.trans hwalk).trans (quiet_maybeFinishShutdown _)

end Events

/-! ### Runs -/

theorem acceptOne_sends (w : World) (added : Bool) : (w.acceptOne added).sends = w.sends := by
  cases added with
  | false => rfl
  | true => cases hhead : w.connsHead <;> simp [World.acceptOne, hhead, World.modify]

theorem acceptOne_modifies (w : World) (added : Bool) :
    (w.acceptOne added).modifies = w.modifies := by
  cases added with
  | false => rfl
  | true => cases hhead : w.connsHead <;> simp [World.acceptOne, hhead, World.modify]

/-- The condition of every event of a run. -/
def Delivers (notify : ConnId → World → World) : World → List Event → Prop
  | _, [] => True
  | w, e :: es => e.Delivers notify w ∧ Delivers notify (e.exec notify w) es

section Induct

theorem Steps.invariant {lossless : Prop} {Inv : World → Prop}
    (hstep : ∀ {w w'}, Micro lossless w w' → Inv w → Inv w') {w w' : World}
    (h : Steps lossless w w') (hw : Inv w) : Inv w' := by
  induction h with
  | refl => exact hw
  | tail _ hmicro ih => exact hstep hmicro ih

variable {lossless : Prop} {Inv : World → Prop}
  (hquiet : ∀ {w w'}, Quiet lossless nobody w w' → Inv w → Inv w')
  (haccept : ∀ {w}, Inv w → Inv (w.acceptOne true))

include haccept in
theorem foldl_acceptOne {w : World} (added : List Bool) (hsafe : Safe lossless w) (hw : Inv w) :
    Safe lossless (added.foldl World.acceptOne w) ∧ Inv (added.foldl World.acceptOne w) := by
  induction added generalizing w with
  | nil => exact ⟨hsafe, hw⟩
  | cons ok added ih =>
      refine ih ?_ ?_
      · rw [Safe, acceptOne_sends, acceptOne_modifies]
        exact hsafe
      · cases ok with
        | false => exact hw
        | true => exact haccept hw

include hquiet haccept

/-- What quiet chains and accepts keep, events keep. -/
theorem exec_invariant {notify : ConnId → World → World} (hnotify : Notifies lossless notify)
    {w : World} (e : Event) (hsafe : Safe lossless w) (hdelivers : lossless → e.Delivers notify w)
    (hw : Inv w) : Safe lossless (e.exec notify w) ∧ Inv (e.exec notify w) := by
  have hchain {w' : World} (h : Quiet lossless nobody w w') : Safe lossless w' ∧ Inv w' :=
    ⟨hsafe.quiet h, hquiet h hw⟩
  by_cases hadd : ∃ added, e = .accept added
  · obtain ⟨added, rfl⟩ := hadd
    show Safe lossless (w.onAcceptCb added) ∧ Inv (w.onAcceptCb added)
    rw [World.onAcceptCb]
    dsimp only
    split_ifs
    · exact ⟨hsafe, hw⟩
    · exact hchain ((quiet_closeListener w).trans (quiet_maybeFinishShutdown _))
    · exact hchain (quiet_closeListener w)
    · exact foldl_acceptOne haccept added hsafe hw
  · push Not at hadd
    exact hchain (quiet_exec hnotify e hadd hsafe hdelivers)

/-- **Invariants of runs**: for every application, every depth of its callbacks and every sequence of
events. -/
theorem run_induct (onWsClose : OnWsClose) (depth : ℕ) {w : World} (events : List Event)
    (hsafe : Safe lossless w)
    (hdelivers : lossless → Delivers (World.notifyWsClose onWsClose depth) w events) (hw : Inv w) :
    Inv (run onWsClose depth w events) := by
  have hnotify : Notifies lossless (World.notifyWsClose onWsClose depth) :=
    notifies_notifyWsClose onWsClose depth
  induction events generalizing w with
  | nil => exact hw
  | cons e events ih =>
      obtain ⟨hsafe', hw'⟩ :=
        exec_invariant hquiet haccept hnotify e hsafe (fun hl => (hdelivers hl).1) hw
      exact ih hsafe' (fun hl => (hdelivers hl).2) hw'

end Induct

end Server
