import LibCore.ServerEvents

/-!
# The Lifecycle of Connections

In every run of a server, whatever its callbacks do and whatever the backend answers, the list of
connections is well-formed and has the accepted connections that are not done, a connection is
released and announced once, and the loop is stopped when nothing is left.

## Main results

* `Lifecycle`: the invariant.
* `connections_lifecycle`: it holds in every run.
-/

namespace Server

namespace World

/-- The links of the connections. -/
def links (w : World) : Dll.Links where
  head := w.connsHead
  next := fun c => (w.conns c).next
  prev := fun c => (w.conns c).prev

/-- A connection that was accepted. -/
def Accepted (w : World) (c : ConnId) : Prop := c < w.nextConn

end World

/-- What holds between the steps of a server. -/
structure Lifecycle (w : World) : Prop where
  linked : ∃ nodes, w.links.Represents nodes ∧
    ∀ c, c ∈ nodes ↔ w.Accepted c ∧ (w.conns c).shutdownDone = false
  accepted : ∀ c, (w.conns c).shutdownDone = false → w.Accepted c
  server : ∀ c, (w.conns c).server = !(w.conns c).shutdownDone
  closing : ∀ c, (w.conns c).shutdownDone = true ∨ (w.conns c).backendRemovePending = true →
    (w.conns c).isClosing = true
  deferredNodup : w.deferred.Nodup
  deferred : ∀ c, c ∈ w.deferred ↔ w.Accepted c ∧ (w.conns c).shutdownDone = true
  closesNodup : w.wsCloses.Nodup
  closes : ∀ c ∈ w.wsCloses, w.Accepted c ∧ (w.conns c).wsCloseNotified = true
  stops : ∀ s ∈ w.stops, s = ⟨false, none, 0⟩

section Steps

variable {w : World}

theorem modify_field {β : Type} (g : Conn → β) {c : ConnId} {f : Conn → Conn}
    (hg : g (f (w.conns c)) = g (w.conns c)) (d : ConnId) :
    g ((w.modify c f).conns d) = g (w.conns d) := by
  by_cases hdc : d = c
  · subst hdc
    rw [World.modify_self, hg]
  · rw [World.modify_other w hdc]

theorem links_modify {c : ConnId} {f : Conn → Conn}
    (hnext : (f (w.conns c)).next = (w.conns c).next)
    (hprev : (f (w.conns c)).prev = (w.conns c).prev) : (w.modify c f).links = w.links :=
  Dll.Links.ext rfl (funext (modify_field Conn.next hnext)) (funext (modify_field Conn.prev hprev))

/-- A change of one connection that leaves its place alone. -/
theorem Lifecycle.modify (h : Lifecycle w) {c : ConnId} {f : Conn → Conn}
    (hnext : (f (w.conns c)).next = (w.conns c).next)
    (hprev : (f (w.conns c)).prev = (w.conns c).prev)
    (hserver : (f (w.conns c)).server = (w.conns c).server)
    (hdone : (f (w.conns c)).shutdownDone = (w.conns c).shutdownDone)
    (hclosing : (w.conns c).isClosing = true → (f (w.conns c)).isClosing = true)
    (hpending : (f (w.conns c)).backendRemovePending = true →
      (w.conns c).backendRemovePending = true ∨ (f (w.conns c)).isClosing = true)
    (hnotified : (w.conns c).wsCloseNotified = true → (f (w.conns c)).wsCloseNotified = true) :
    Lifecycle (w.modify c f) := by
  have hlinks := links_modify hnext hprev
  have hdones := modify_field Conn.shutdownDone hdone
  have hservers := modify_field Conn.server hserver
  obtain ⟨nodes, hrep, hnodes⟩ := h.linked
  refine ⟨⟨nodes, hlinks ▸ hrep, fun d => ?_⟩, fun d => ?_, fun d => ?_, fun d => ?_,
    h.deferredNodup, fun d => ?_, h.closesNodup, fun d hd => ?_, h.stops⟩
  · rw [hdones]
    exact hnodes d
  · rw [hdones]
    exact h.accepted d
  · rw [hdones, hservers]
    exact h.server d
  · rw [hdones]
    by_cases hdc : d = c
    · subst hdc
      rw [World.modify_self]
      rintro (hd | hd)
      · exact hclosing (h.closing d (.inl hd))
      · exact (hpending hd).elim (fun hd => hclosing (h.closing d (.inr hd))) id
    · rw [World.modify_other w hdc]
      exact h.closing d
  · rw [hdones]
    exact h.deferred d
  · obtain ⟨hacc, hnot⟩ := h.closes d hd
    refine ⟨hacc, ?_⟩
    by_cases hdc : d = c
    · subst hdc
      rw [World.modify_self]
      exact hnotified hnot
    · rwa [World.modify_other w hdc]

/-- The head after `remove_conn_from_server`. -/
theorem removeConnFromServer_head {c : ConnId} (hserver : (w.conns c).server = true) :
    (w.removeConnFromServer c).connsHead = (w.links.unlink c).head := by
  have hserved : ¬(!(w.conns c).server) = true := by simp [hserver]
  simp only [World.removeConnFromServer, if_neg hserved, Dll.Links.unlink, World.links]
  cases (w.conns c).prev with
  | some p => cases (w.conns c).next <;> rfl
  | none =>
      by_cases hhead : w.connsHead = some c
      · cases (w.conns c).next <;> simp [hhead, World.modify]
      · cases (w.conns c).next <;> simp [hhead, World.modify]

/-- Leaving is taking the node out. -/
theorem links_leave {c : ConnId} (hserver : (w.conns c).server = true) :
    (w.leave c).links = w.links.unlink c := by
  have hserved : ¬(w.conns c).server = false := by simp [hserver]
  refine Dll.Links.ext ?_ (funext fun d => ?_) (funext fun d => ?_)
  · have hserver' : ((w.modify c fun x =>
        { x with shutdownDone := true, backendRemovePending := false }).conns c).server = true := by
      rw [World.modify_self]
      exact hserver
    have hhead := removeConnFromServer_head hserver'
    have hlinks : (w.modify c fun x =>
        { x with shutdownDone := true, backendRemovePending := false }).links = w.links :=
      links_modify rfl rfl
    rw [hlinks] at hhead
    exact hhead
  · show ((w.leave c).conns d).next = _
    by_cases hdc : d = c
    · subst hdc
      rw [World.leave_self, if_neg hserved]
      simp [Dll.Links.unlink]
    · rw [World.leave_other w hdc, if_neg hserved]
      simp only [Dll.Links.unlink, hdc, if_false, World.links]
      by_cases hprev : (w.conns c).prev = some d <;> simp [hprev]
  · show ((w.leave c).conns d).prev = _
    by_cases hdc : d = c
    · subst hdc
      rw [World.leave_self, if_neg hserved]
      simp [Dll.Links.unlink]
    · rw [World.leave_other w hdc, if_neg hserved]
      simp only [Dll.Links.unlink, hdc, if_false, World.links]
      by_cases hnext : (w.conns c).next = some d <;> simp [hnext]

/-- A connection leaves. -/
theorem Lifecycle.leave (h : Lifecycle w) {c : ConnId} (hdone : (w.conns c).shutdownDone = false)
    (hclosing : (w.conns c).isClosing = true ∨ (w.conns c).backendRemovePending = true) :
    Lifecycle (w.leave c) := by
  have hserver : (w.conns c).server = true := by simp [h.server c, hdone]
  have hlinks := links_leave hserver
  obtain ⟨nodes, hrep, hnodes⟩ := h.linked
  have haccepted := h.accepted c hdone
  obtain ⟨a, b, rfl⟩ := List.append_of_mem ((hnodes c).mpr ⟨haccepted, hdone⟩)
  have hself := w.leave_self c
  rw [if_neg (by simp [hserver])] at hself
  have hother {d : ConnId} (hdc : d ≠ c) := w.leave_other hdc
  simp only [hserver, Bool.true_eq_false, if_false] at hother
  have hacc (d : ConnId) : (w.leave c).Accepted d ↔ w.Accepted d := by
    rw [World.Accepted, World.leave_eq]
    rfl
  have hdeferred : (w.leave c).deferred = w.deferred ++ [c] := by rw [World.leave_eq]
  have hnew : c ∉ w.deferred := fun hmem => by
    have hleft := ((h.deferred c).mp hmem).2
    simp [hdone] at hleft
  have hnodup := hrep.nodup
  refine ⟨⟨a ++ b, hlinks ▸ hrep.unlink, fun d => ?_⟩, fun d => ?_, fun d => ?_, fun d => ?_, ?_,
    fun d => ?_, ?_, fun d hd => ?_, ?_⟩
  · rw [hacc]
    by_cases hdc : d = c
    · subst hdc
      have hnot : d ∉ a ++ b := (List.nodup_cons.mp (List.perm_middle.nodup_iff.mp hnodup)).1
      simp [hself, hnot]
    · simp only [hother hdc]
      rw [← hnodes d]
      simp [hdc]
  · rw [hacc]
    by_cases hdc : d = c
    · subst hdc
      exact fun _ => haccepted
    · rw [hother hdc]
      exact h.accepted d
  · by_cases hdc : d = c
    · subst hdc
      rw [hself]
      rfl
    · rw [hother hdc]
      exact h.server d
  · by_cases hdc : d = c
    · subst hdc
      rw [hself]
      exact fun _ => hclosing.elim id fun hpending => h.closing d (.inr hpending)
    · rw [hother hdc]
      exact h.closing d
  · rw [hdeferred]
    exact List.concat_eq_append ▸ List.Nodup.concat hnew h.deferredNodup
  · rw [hdeferred, hacc]
    by_cases hdc : d = c
    · subst hdc
      simp [hself, haccepted]
    · simp only [hother hdc]
      rw [← h.deferred d]
      simp [hdc]
  · rw [World.leave_eq]
    exact h.closesNodup
  · rw [World.leave_eq] at hd
    obtain ⟨hd, hnotified⟩ := h.closes d hd
    refine ⟨(hacc d).mpr hd, ?_⟩
    by_cases hdc : d = c
    · subst hdc
      rw [hself]
      exact hnotified
    · rw [hother hdc]
      exact hnotified
  · rw [World.leave_eq]
    exact h.stops

/-- Every step keeps the invariant. -/
theorem Lifecycle.micro {lossless : Prop} {w' : World} (hstep : Micro lossless w w')
    (h : Lifecycle w) : Lifecycle w' := by
  cases hstep with
  | edit c f hedit =>
      exact h.modify hedit.next hedit.prev hedit.server hedit.shutdownDone hedit.isClosing
        hedit.pending fun hnotified => hedit.wsCloseNotified ▸ hnotified
  | server w' hconns hnext hhead hdeferred hcloses hshutdowns hstops =>
      have hlinks : w'.links = w.links := by simp [World.links, hconns, hhead]
      have hacc (c : ConnId) : w'.Accepted c ↔ w.Accepted c := by
        rw [World.Accepted, hnext, World.Accepted]
      refine ⟨?_, ?_, ?_, ?_, ?_, ?_, ?_, ?_, ?_⟩
      · simpa [hlinks, hconns, hacc] using h.linked
      · simpa [hconns, hacc] using h.accepted
      · simpa [hconns] using h.server
      · simpa only [hconns] using h.closing
      · simpa [hdeferred] using h.deferredNodup
      · simpa [hdeferred, hconns, hacc] using h.deferred
      · simpa [hcloses] using h.closesNodup
      · simpa [hcloses, hconns, hacc] using h.closes
      · simpa [hstops] using h.stops
  | announce c hmode hnotified called hcalled =>
      have hmark : Lifecycle (w.modify c fun x => { x with wsCloseNotified := true }) :=
        h.modify rfl rfl rfl rfl id .inl fun _ => rfl
      cases called with
      | false => exact ⟨hmark.linked, hmark.accepted, hmark.server, hmark.closing, hmark.deferredNodup,
          hmark.deferred, hmark.closesNodup, hmark.closes, hmark.stops⟩
      | true =>
          refine ⟨hmark.linked, hmark.accepted, hmark.server, hmark.closing, hmark.deferredNodup, hmark.deferred,
            ?_, fun d hd => ?_, hmark.stops⟩
          · have hnew : c ∉ w.wsCloses := fun hmem => by simp [(h.closes c hmem).2] at hnotified
            exact List.concat_eq_append ▸ List.Nodup.concat hnew h.closesNodup
          · rcases List.mem_append.mp hd with hd | hd
            · exact hmark.closes d hd
            · obtain rfl := List.mem_singleton.mp hd
              have hopen : (w.conns d).shutdownDone = false := by
                simpa [h.server d] using hcalled rfl
              refine ⟨h.accepted d hopen, ?_⟩
              exact congrArg Conn.wsCloseNotified
                (w.modify_self d fun x => { x with wsCloseNotified := true })
  | shutdown c cause hdone hempty =>
      have hmark : Lifecycle (w.modify c fun x => { x with isClosing := true }) :=
        h.modify rfl rfl rfl rfl (fun _ => rfl) .inl id
      exact ⟨hmark.linked, hmark.accepted, hmark.server, hmark.closing, hmark.deferredNodup, hmark.deferred,
        hmark.closesNodup, hmark.closes, hmark.stops⟩
  | leave c hdone hclosing => exact h.leave hdone hclosing
  | discard c hdone => exact h.modify rfl rfl rfl rfl id .inl id
  | stop hlistener hhead hdrain =>
      refine ⟨h.linked, h.accepted, h.server, h.closing, h.deferredNodup, h.deferred, h.closesNodup, h.closes,
        fun s hs => ?_⟩
      rcases List.mem_append.mp hs with hs | hs
      · exact h.stops s hs
      · rw [List.mem_singleton.mp hs, hlistener, hhead, hdrain]

theorem acceptOne_self (hhead : w.connsHead ≠ some w.nextConn) :
    (w.acceptOne true).conns w.nextConn = { Conn.new with next := w.connsHead } := by
  cases hh : w.connsHead with
  | none => simp [World.acceptOne, hh]
  | some d =>
      have hd : w.nextConn ≠ d := fun hd => hhead (hd ▸ hh)
      simp [World.acceptOne, hh, World.modify_other _ hd]

theorem acceptOne_other {d : ConnId} (hd : d ≠ w.nextConn) :
    (w.acceptOne true).conns d =
      { w.conns d with prev := if w.connsHead = some d then some w.nextConn else (w.conns d).prev } := by
  cases hh : w.connsHead with
  | none => simp [World.acceptOne, hh, hd]
  | some e =>
      by_cases hde : d = e
      · subst hde
        simp [World.acceptOne, hh, hd, World.modify]
      · have hed : e ≠ d := fun hed => hde hed.symm
        simp [World.acceptOne, hh, hd, World.modify, hde, hed]

theorem acceptOne_fields (w : World) :
    (w.acceptOne true).nextConn = w.nextConn + 1 ∧
      (w.acceptOne true).connsHead = some w.nextConn ∧
      (w.acceptOne true).deferred = w.deferred ∧ (w.acceptOne true).wsCloses = w.wsCloses ∧
      (w.acceptOne true).stops = w.stops := by
  cases hh : w.connsHead <;> simp [World.acceptOne, hh, World.modify]

/-- Accepting is pushing a node in front. -/
theorem links_acceptOne {nodes : List ConnId} (hrep : w.links.Represents nodes)
    (hfresh : w.nextConn ∉ nodes) : (w.acceptOne true).links = w.links.pushFront w.nextConn := by
  have hhead : w.connsHead ≠ some w.nextConn := fun hhead =>
    hfresh (List.mem_of_mem_head? (hrep.head.symm.trans hhead))
  have hnone : (w.conns w.nextConn).prev = none := (hrep.outer _ hfresh).2
  refine Dll.Links.ext (acceptOne_fields w).2.1 (funext fun d => ?_) (funext fun d => ?_)
  · show ((w.acceptOne true).conns d).next = _
    by_cases hd : d = w.nextConn
    · subst hd
      rw [acceptOne_self hhead]
      simp [Dll.Links.pushFront, World.links]
    · rw [acceptOne_other hd]
      simp [Dll.Links.pushFront, World.links, hd]
  · show ((w.acceptOne true).conns d).prev = _
    by_cases hd : d = w.nextConn
    · subst hd
      rw [acceptOne_self hhead]
      cases hh : w.connsHead with
      | none => simp [Dll.Links.pushFront, World.links, hh, hnone, Conn.new]
      | some e =>
          have he : w.nextConn ≠ e := fun he => hhead (he ▸ hh)
          simp [Dll.Links.pushFront, World.links, hh, hnone, Conn.new, he]
    · rw [acceptOne_other hd]
      cases hh : w.connsHead with
      | none => simp [Dll.Links.pushFront, World.links, hh]
      | some e =>
          by_cases hde : d = e
          · subst hde
            simp [Dll.Links.pushFront, World.links, hh]
          · have hed : e ≠ d := fun hed => hde hed.symm
            simp [Dll.Links.pushFront, World.links, hh, hde, hed]

theorem Lifecycle.head_ne (h : Lifecycle w) : w.connsHead ≠ some w.nextConn := by
  obtain ⟨nodes, hrep, hnodes⟩ := h.linked
  intro hhead
  have hmem := (hnodes _).mp (List.mem_of_mem_head? (hrep.head.symm.trans hhead))
  exact absurd hmem.1 (lt_irrefl _)

/-- A connection is accepted. -/
theorem Lifecycle.acceptOne (h : Lifecycle w) : Lifecycle (w.acceptOne true) := by
  obtain ⟨nodes, hrep, hnodes⟩ := h.linked
  have hfresh : w.nextConn ∉ nodes := fun hmem => absurd ((hnodes _).mp hmem).1 (lt_irrefl _)
  have hhead := h.head_ne
  obtain ⟨hnext, -, hdeferred, hcloses, hstops⟩ := acceptOne_fields w
  have hself := acceptOne_self hhead
  have hacc (d : ConnId) : (w.acceptOne true).Accepted d ↔ d = w.nextConn ∨ w.Accepted d := by
    rw [World.Accepted, hnext, World.Accepted, Nat.lt_succ_iff_lt_or_eq, or_comm]
  have hnot : ¬w.Accepted w.nextConn := lt_irrefl _
  have hrep' := links_acceptOne hrep hfresh ▸ hrep.pushFront hfresh
  refine ⟨⟨w.nextConn :: nodes, hrep', fun d => ?_⟩, fun d => ?_, fun d => ?_, fun d => ?_, ?_,
    fun d => ?_, ?_, fun d hd => ?_, ?_⟩
  · rw [hacc, List.mem_cons, hnodes]
    by_cases hd : d = w.nextConn
    · subst hd
      simp [hself, Conn.new]
    · simp [acceptOne_other hd, hd]
  · rw [hacc]
    by_cases hd : d = w.nextConn
    · exact fun _ => .inl hd
    · rw [acceptOne_other hd]
      exact fun hdone => .inr (h.accepted d hdone)
  · by_cases hd : d = w.nextConn
    · subst hd
      rw [hself]
      rfl
    · rw [acceptOne_other hd]
      exact h.server d
  · by_cases hd : d = w.nextConn
    · subst hd
      rw [hself]
      simp [Conn.new]
    · rw [acceptOne_other hd]
      exact h.closing d
  · rw [hdeferred]
    exact h.deferredNodup
  · rw [hdeferred, hacc, h.deferred]
    by_cases hd : d = w.nextConn
    · subst hd
      simp [hself, Conn.new, hnot]
    · simp [acceptOne_other hd, hd]
  · rw [hcloses]
    exact h.closesNodup
  · rw [hcloses] at hd
    obtain ⟨hd, hnotified⟩ := h.closes d hd
    have hne : d ≠ w.nextConn := fun he => hnot (he ▸ hd)
    rw [hacc, acceptOne_other hne]
    exact ⟨.inr hd, hnotified⟩
  · rw [hstops]
    exact h.stops

theorem Lifecycle.new (sends : List SendResult) (removes modifies allocs : List Bool) :
    Lifecycle (World.new sends removes modifies allocs) where
  linked := ⟨[], Dll.Links.represents_nil, fun c => by simp [World.Accepted, World.new]⟩
  accepted c h := by simp [World.new, noConn] at h
  server c := by simp [World.new, noConn]
  closing c _ := rfl
  deferredNodup := List.nodup_nil
  deferred c := by simp [World.Accepted, World.new]
  closesNodup := List.nodup_nil
  closes c h := by simp [World.new] at h
  stops s h := by simp [World.new] at h

end Steps

/-- The invariant holds in every run. -/
theorem lifecycle_run (onWsClose : OnWsClose) (depth : ℕ) (events : List Event)
    (sends : List SendResult) (removes modifies allocs : List Bool) :
    Lifecycle (run onWsClose depth (World.new sends removes modifies allocs) events) := by
  have hquiet {w w' : World} (h : Quiet False nobody w w') (hw : Lifecycle w) : Lifecycle w' :=
    Steps.invariant (fun hstep hw => hw.micro hstep) h.steps hw
  exact run_induct hquiet Lifecycle.acceptOne onWsClose depth events (fun h => h.elim)
    (fun h => h.elim) (Lifecycle.new sends removes modifies allocs)

/-- **The lifecycle of connections.** In every run the list of connections is well-formed and has
exactly the accepted connections that are not done; a connection is handed to `deferRelease` once,
when it leaves the list; `on_ws_close` is called at most once for it; and the loop is stopped only
without a listener, without connections and without anything to drain. -/
theorem connections_lifecycle (onWsClose : OnWsClose) (depth : ℕ) (events : List Event)
    (sends : List SendResult) (removes modifies allocs : List Bool) :
    let w := run onWsClose depth (World.new sends removes modifies allocs) events
    (∃ nodes, w.links.Represents nodes ∧
        (∀ c, c ∈ nodes ↔ w.Accepted c ∧ (w.conns c).shutdownDone = false) ∧
        (∀ c, c ∈ w.deferred ↔ w.Accepted c ∧ c ∉ nodes)) ∧
      w.deferred.Nodup ∧ w.wsCloses.Nodup ∧
      ∀ s ∈ w.stops, s.listener = false ∧ s.connsHead = none ∧ s.drainCount = 0 := by
  intro w
  have h : Lifecycle w := lifecycle_run onWsClose depth events sends removes modifies allocs
  obtain ⟨nodes, hrep, hnodes⟩ := h.linked
  refine ⟨⟨nodes, hrep, hnodes, fun c => ?_⟩, h.deferredNodup, h.closesNodup, fun s hs => ?_⟩
  · rw [h.deferred, hnodes]
    refine and_congr_right fun hc => ?_
    simp [hc]
  · rw [h.stops s hs]
    exact ⟨rfl, rfl, rfl⟩

end Server
