import LibCore.ServerLifecycle

/-!
# Delivering Output

What happens to the bytes that are queued on a connection. They reach the socket in order, and the
backend is asked for the events the queue needs (`output_queue`). Whether they all reach it before
the connection is shut down depends on how it is: a closing WebSocket connection is flushed first,
but a request without keep-alive and a graceful shutdown close an HTTP connection with its output
(`output_delivered`, `response_truncated`).

## Main results

* `output_queue`: the queue refines the stream of appended bytes.
* `output_delivered`: when nothing is lost before a shutdown.
-/

open CString

namespace Server

/-! ### The queue -/

theorem Conn.coherent_noConn : noConn.Coherent where
  fits := ⟨Nat.le_refl 0, by decide⟩
  stream _ := rfl
  interest := rfl
  writeOnly _ := rfl

/-- What holds of the queues between the steps of a server. -/
structure Queues (w : World) : Prop where
  lifecycle : Lifecycle w
  coherent : ∀ c, (w.conns c).Coherent
  sock : ∀ c, (w.conns c).SockOk

theorem coherent_modify {w : World} (c : ConnId) {f : Conn → Conn}
    (hf : (w.conns c).Coherent → (f (w.conns c)).Coherent) (h : ∀ c, (w.conns c).Coherent)
    (d : ConnId) : ((w.modify c f).conns d).Coherent := by
  by_cases hdc : d = c
  · subst hdc
    rw [World.modify_self]
    exact hf (h d)
  · rw [World.modify_other w hdc]
    exact h d

/-- Every step keeps the queues coherent. -/
theorem Micro.coherent {lossless : Prop} {w w' : World} (hstep : Micro lossless w w')
    (h : ∀ c, (w.conns c).Coherent) : ∀ c, (w'.conns c).Coherent := by
  cases hstep with
  | edit c f hedit => exact coherent_modify c hedit.coherent h
  | server w' hconns =>
      rw [hconns]
      exact h
  | announce c hmode hnotified called hcalled =>
      exact coherent_modify c (f := fun x => { x with wsCloseNotified := true })
        (fun h => ⟨h.fits, h.stream, h.interest, h.writeOnly⟩) h
  | shutdown c cause hdone hempty =>
      exact coherent_modify c (f := fun x => { x with isClosing := true })
        (w.conns c).edit_closing.coherent h
  | leave c hdone hclosing =>
      intro d
      by_cases hdc : d = c
      · subst hdc
        have hd := h d
        rw [World.leave_self]
        split_ifs <;> exact ⟨hd.fits, hd.stream, hd.interest, hd.writeOnly⟩
      · have hsame := w.leave_same hdc
        have hd := h d
        rw [Conn.Same] at hsame
        rw [hsame]
        exact ⟨hd.fits, hd.stream, hd.interest, hd.writeOnly⟩
  | discard c hdone =>
      refine coherent_modify c (f := fun x => { x with outBuf := [], discarded := true })
        (fun h => ⟨⟨Nat.zero_le _, Nat.zero_le _⟩, fun h => ?_, h.interest, h.writeOnly⟩) h
      simp at h
  | stop hlistener hhead hdrain => exact h

theorem Steps.coherent {lossless : Prop} {w w' : World} (hsteps : Steps lossless w w')
    (h : ∀ c, (w.conns c).Coherent) : ∀ c, (w'.conns c).Coherent := by
  induction hsteps with
  | refl => exact h
  | tail _ hstep ih => exact hstep.coherent ih

theorem Queues.quiet {lossless : Prop} {P : ConnId → Prop} {w w' : World}
    (hquiet : Quiet lossless P w w') (h : Queues w) : Queues w' where
  lifecycle := Steps.invariant (fun hstep hw => hw.micro hstep) hquiet.steps h.lifecycle
  coherent := hquiet.steps.coherent h.coherent
  sock c := hquiet.sock c (h.sock c)

theorem Queues.acceptOne {w : World} (h : Queues w) : Queues (w.acceptOne true) := by
  have hhead := h.lifecycle.head_ne
  refine ⟨h.lifecycle.acceptOne, fun c => ?_, fun c => ?_⟩
  · by_cases hc : c = w.nextConn
    · subst hc
      rw [acceptOne_self hhead]
      exact ⟨Conn.coherent_new.fits, Conn.coherent_new.stream, rfl, Conn.coherent_new.writeOnly⟩
    · have hw := h.coherent c
      rw [acceptOne_other hc]
      exact ⟨hw.fits, hw.stream, hw.interest, hw.writeOnly⟩
  · by_cases hc : c = w.nextConn
    · subst hc
      rw [acceptOne_self hhead]
      exact fun hclosed => by simp [Conn.new] at hclosed
    · have hw := h.sock c
      rw [acceptOne_other hc]
      exact hw

theorem Queues.new (sends : List SendResult) (removes modifies allocs : List Bool) :
    Queues (World.new sends removes modifies allocs) where
  lifecycle := Lifecycle.new sends removes modifies allocs
  coherent _ := Conn.coherent_noConn
  sock _ _ := .inl rfl

/-- What may happen to a queue: an event, or one of the operations that events are made of, between
the events. -/
inductive QueueOp
  | event (e : Event)
  | append (c : ConnId) (data : Bytes)
  | setClosing (c : ConnId)
  | flush (c : ConnId)

/-- The world after an operation. -/
def QueueOp.exec (notify : ConnId → World → World) (w : World) : QueueOp → World
  | .event e => e.exec notify w
  | .append c data => (World.append c data w).2
  | .setClosing c => w.modify c fun x => { x with isClosing := true }
  | .flush c => World.flush notify c w

theorem queues_exec {notify : ConnId → World → World} (hnotify : Notifies False notify) {w : World}
    (op : QueueOp) (h : Queues w) : Queues (op.exec notify w) := by
  have hsafe : Safe False w := fun h => h.elim
  cases op with
  | event e =>
      exact (exec_invariant (fun hquiet h => h.quiet hquiet) Queues.acceptOne hnotify e hsafe
        (fun h => h.elim) h).2
  | append c data =>
      have hquiet : Quiet False (allBut c) w (World.append c data w).2 := quiet_append c data w
      exact h.quiet hquiet
  | setClosing c =>
      have hquiet : Quiet False (allBut c) w (w.modify c fun x => { x with isClosing := true }) :=
        quiet_edit c _ (w.conns c).edit_closing fun h => h
      exact h.quiet hquiet
  | flush c => exact h.quiet (quiet_flush hnotify hsafe c)

theorem queues_run {notify : ConnId → World → World} (hnotify : Notifies False notify)
    (ops : List QueueOp) {w : World} (h : Queues w) : Queues (ops.foldl (QueueOp.exec notify) w) := by
  induction ops generalizing w with
  | nil => exact h
  | cons op ops ih => exact ih (queues_exec hnotify op h)

/-- **The output queue.** After every sequence of operations, the bytes that the socket has taken and
then those in the queue are the bytes that were appended, unless the queue was dropped at the
deadline of a graceful shutdown. A flush that leaves the connection open leaves it registered for
writing exactly if there is output, and for reading exactly if it is not closing. -/
theorem output_queue (onWsClose : OnWsClose) (depth : ℕ) (ops : List QueueOp)
    (sends : List SendResult) (removes modifies allocs : List Bool) (c : ConnId) :
    let notify := World.notifyWsClose onWsClose depth
    let w := ops.foldl (QueueOp.exec notify) (World.new sends removes modifies allocs)
    let x := (World.flush notify c w).conns c
    ((w.conns c).discarded = false →
        (w.conns c).wire ++ (w.conns c).outBuf = (w.conns c).appended) ∧
      (x.shutdownDone = false → x.backendRemovePending = false →
        (x.interest.write = true ↔ x.outBuf ≠ []) ∧
          (x.interest.read = false ↔ x.isClosing = true)) := by
  intro notify w x
  have hnotify : Notifies False notify := notifies_notifyWsClose onWsClose depth
  have hsafe : Safe False w := fun h => h.elim
  have hw : Queues w := queues_run hnotify ops (Queues.new sends removes modifies allocs)
  have hserver := hw.lifecycle.server c
  refine ⟨(hw.coherent c).stream, fun hdone hpending => ?_⟩
  cases hsock : (w.conns c).sockOpen with
  | false =>
      -- a closed socket is only found on connections that are on their way out
      have hx : x = w.conns c := by
        show (World.flush notify c w).conns c = _
        rw [flush_of_closed hsock]
      rw [hx] at hdone hpending
      rcases hw.sock c hsock with hunserved | hleft | hwaits
      · simp [hserver, hdone] at hunserved
      · simp [hdone] at hleft
      · simp [hpending] at hwaits
  | true =>
      have hregistered := flush_registered hnotify hsafe (hw.coherent c)
        (fun hopen => by simp [hserver, hopen]) hsock hdone hpending
      exact ⟨hregistered.write, hregistered.read⟩

/-! ### Before a shutdown -/

/-- No output is lost: a connection that is not done has dropped none, and those that were shut down
had sent all of it, unless the peer was gone or the request was refused. -/
structure Delivered (w : World) : Prop where
  coherent : ∀ c, (w.conns c).Coherent
  kept : ∀ c, (w.conns c).shutdownDone = false → (w.conns c).discarded = false
  shutdowns : ∀ s ∈ w.shutdowns, s.cause ≠ .lost → s.cause ≠ .rejected → s.wire = s.appended

theorem kept_modify {w : World} (c : ConnId) {f : Conn → Conn}
    (h : ∀ c, (w.conns c).shutdownDone = false → (w.conns c).discarded = false)
    (hf : (f (w.conns c)).shutdownDone = false →
      (w.conns c).shutdownDone = false ∧ (f (w.conns c)).discarded = (w.conns c).discarded)
    (d : ConnId) (hd : ((w.modify c f).conns d).shutdownDone = false) :
    ((w.modify c f).conns d).discarded = false := by
  by_cases hdc : d = c
  · subst hdc
    rw [World.modify_self] at hd ⊢
    rw [(hf hd).2]
    exact h d (hf hd).1
  · rw [World.modify_other w hdc] at hd ⊢
    exact h d hd

/-- Every step that may not lose output keeps the invariant. -/
theorem Delivered.micro {w w' : World} (hstep : Micro True w w') (h : Delivered w) :
    Delivered w' := by
  refine ⟨hstep.coherent h.coherent, ?_, ?_⟩
  · cases hstep with
    | edit c f hedit =>
        exact kept_modify c h.kept fun hdone => ⟨hedit.shutdownDone ▸ hdone, hedit.discarded⟩
    | server w' hconns =>
        rw [hconns]
        exact h.kept
    | announce c hmode hnotified called hcalled =>
        exact kept_modify c (f := fun x => { x with wsCloseNotified := true }) h.kept
          fun hdone => ⟨hdone, rfl⟩
    | shutdown c cause hdone hempty =>
        exact kept_modify c (f := fun x => { x with isClosing := true }) h.kept
          fun hdone => ⟨hdone, rfl⟩
    | leave c hdone hclosing =>
        intro d hd
        by_cases hdc : d = c
        · subst hdc
          rw [World.leave_self] at hd
          split_ifs at hd
        · have hsame := w.leave_same hdc
          rw [Conn.Same] at hsame
          rw [hsame] at hd ⊢
          exact h.kept d hd
    | discard c hdone =>
        refine kept_modify c (f := fun x => { x with outBuf := [], discarded := true }) h.kept
          fun hopen => ?_
        simp [hdone trivial] at hopen
    | stop hlistener hhead hdrain => exact h.kept
  · cases hstep with
    | edit c f hedit => exact h.shutdowns
    | server w' hconns hnext hhead hdeferred hcloses hshutdowns hstops =>
        rw [hshutdowns]
        exact h.shutdowns
    | announce c hmode hnotified called hcalled => exact h.shutdowns
    | shutdown c cause hdone hempty =>
        intro s hs hlost hrejected
        rcases List.mem_append.mp hs with hs | hs
        · exact h.shutdowns s hs hlost hrejected
        · obtain rfl := List.mem_singleton.mp hs
          -- its queue is empty, so the socket has all of it
          have hstream := (h.coherent c).stream (h.kept c hdone)
          rw [hempty trivial hlost hrejected, List.append_nil] at hstream
          exact hstream
    | leave c hdone hclosing =>
        rw [World.leave_eq]
        exact h.shutdowns
    | discard c hdone => exact h.shutdowns
    | stop hlistener hhead hdrain => exact h.shutdowns

theorem acceptOne_shutdowns (w : World) : (w.acceptOne true).shutdowns = w.shutdowns := by
  cases hhead : w.connsHead <;> simp [World.acceptOne, hhead, World.modify]

/-- Both invariants of a lossless run. -/
structure Lossless (w : World) : Prop where
  queues : Queues w
  delivered : Delivered w

theorem Lossless.quiet {w w' : World} (hquiet : Quiet True nobody w w') (h : Lossless w) :
    Lossless w' :=
  ⟨h.queues.quiet hquiet,
    Steps.invariant (fun hstep hw => hw.micro hstep) hquiet.steps h.delivered⟩

theorem Lossless.acceptOne {w : World} (h : Lossless w) : Lossless (w.acceptOne true) := by
  have hqueues := h.queues.acceptOne
  refine ⟨hqueues, hqueues.coherent, fun c hc => ?_, ?_⟩
  · by_cases hnew : c = w.nextConn
    · subst hnew
      rw [acceptOne_self h.queues.lifecycle.head_ne]
      rfl
    · rw [acceptOne_other hnew] at hc ⊢
      exact h.delivered.kept c hc
  · rw [acceptOne_shutdowns]
    exact h.delivered.shutdowns

/-- **Delivery before a shutdown.** In a run without errors of the socket and the backend, whose
events meet their conditions, every connection that is shut down has sent all the output it ever
queued, unless its peer is gone or its request is refused. -/
theorem output_delivered (onWsClose : OnWsClose) (depth : ℕ) (events : List Event)
    (sends : List SendResult) (removes modifies allocs : List Bool)
    (hsends : ∀ r ∈ sends, r.Healthy) (hmodifies : ∀ ok ∈ modifies, ok = true)
    (hdelivers : Delivers (World.notifyWsClose onWsClose depth)
      (World.new sends removes modifies allocs) events) :
    ∀ s ∈ (run onWsClose depth (World.new sends removes modifies allocs) events).shutdowns,
      s.cause ≠ .lost → s.cause ≠ .rejected → s.wire = s.appended := by
  have hnew : Lossless (World.new sends removes modifies allocs) := by
    refine ⟨Queues.new sends removes modifies allocs, fun _ => Conn.coherent_noConn, fun c hc => ?_,
      fun s hs => ?_⟩
    · rfl
    · simp [World.new] at hs
  exact (run_induct Lossless.quiet Lossless.acceptOne onWsClose depth events
    (fun _ => ⟨hsends, hmodifies⟩) (fun _ => hdelivers) hnew).delivered.shutdowns

/-- A request without keep-alive on the first connection, and its response. -/
def closeRequest (response : Bytes) : Event :=
  .readable 0 [.request false false
    (fun _ => .call (.appendSend response) fun _ _ => .call .flush fun _ _ => .done)
    (fun _ => .done) true [] false]

theorem output_delivered_whole :
    Delivers (World.notifyWsClose (fun _ _ => .done) 0) (World.new [.sent 1, .sent 2] [] [] [])
        [.accept [true], closeRequest [0x61, 0x62, 0x63]] ∧
      ∀ s ∈ (run (fun _ _ => .done) 0 (World.new [.sent 1, .sent 2] [] [] [])
          [.accept [true], closeRequest [0x61, 0x62, 0x63]]).shutdowns,
        s.cause ≠ .lost → s.cause ≠ .rejected → s.wire = s.appended := by
  have hdelivers : Delivers (World.notifyWsClose (fun _ _ => .done) 0)
      (World.new [.sent 1, .sent 2] [] [] []) [.accept [true], closeRequest [0x61, 0x62, 0x63]] := by
    refine ⟨trivial, fun _ => ?_, trivial⟩
    simp only [World.AnswersInFull]
    decide +kernel
  refine ⟨hdelivers, output_delivered (fun _ _ => .done) 0 _ _ [] [] [] ?_ ?_ hdelivers⟩
  · intro r hr
    fin_cases hr <;> simp [SendResult.Healthy]
  · intro ok hok
    simp at hok

/-- The socket takes the first byte of a response and would block on the rest. The connection is shut
down with the rest in its queue. -/
theorem response_truncated :
    (∀ r ∈ [SendResult.sent 1, .wouldBlock], r.Healthy) ∧
      ¬∀ s ∈ (run (fun _ _ => .done) 0 (World.new [.sent 1, .wouldBlock] [] [] [])
          [.accept [true], closeRequest [0x61, 0x62, 0x63]]).shutdowns,
        s.cause ≠ .lost → s.cause ≠ .rejected → s.wire = s.appended := by
  refine ⟨fun r hr => ?_, by decide +kernel⟩
  fin_cases hr <;> simp [SendResult.Healthy]

end Server
