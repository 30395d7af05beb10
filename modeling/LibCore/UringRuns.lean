import LibCore.CInt
import LibCore.UringWait

/-!
# Runs of the `io_uring` Backend

The calls keep the accounts, and so does every order of calls and completions. Between the calls no reference is
held, so a context goes only when the map, the operations and the queue have let it go, and one that waits for
events has its poll in flight or is in the queue.

## Main definitions

* `Called`: what a call other than a wait leaves.
* `Backend.HasRoom`: the counters, which are `int`s in the code, have room for a call.

## Main results

* `Inv.exec`: one call or completion.
* `context_accounting`: the references over whole runs.
* `registrations_kept`: no registration is lost.
-/

namespace Uring

variable {env : Env} {b b' : Backend} {c : ℕ} {x : SocketContext} {fd : ℤ} {mask : Mask} {calls : List Call}

/-- What a call other than a wait leaves: no context leaves the queue. -/
structure Called (b b' : Backend) : Prop where
  inv : Inv b' b'.rearm.entries []
  entries : b.rearm.entries <+: b'.rearm.entries
  failed : b'.rearm.failed = false → b.rearm.failed = false

theorem Inv.called (h : Inv b b.rearm.entries []) : Called b b := ⟨h, List.prefix_rfl, id⟩

/-! ### Masks that are asked for -/

theorem note_eq (hmap : b.ctxMap fd = some c) (mask : Mask) (ret : ℤ) :
    b.note fd mask ret = { b with
      passed := Function.update b.passed c mask
      accepted := if ret = 0 then Function.update b.accepted c mask else b.accepted } := by
  rw [Backend.note, hmap]

/-- The accounts know no masks that were asked for. -/
theorem Called.note (h : Called b b') (fd : ℤ) (mask : Mask) (ret : ℤ) : Called b (b'.note fd mask ret) := by
  cases hmap : b'.ctxMap fd with
  | none =>
      rw [Backend.note, hmap]
      exact h
  | some c =>
      rw [note_eq hmap]
      have hi := h.inv
      exact ⟨⟨hi.account, hi.fds, hi.fresh, hi.total, hi.freed, hi.logged, hi.count_le⟩, h.entries, h.failed⟩

/-- A call that fails leaves the masks. -/
theorem Masks.note_of_ne (h : Masks b) (fd : ℤ) (mask : Mask) {ret : ℤ} (hret : ret ≠ 0) :
    Masks (b.note fd mask ret) := by
  cases hmap : b.ctxMap fd with
  | none =>
      rw [Backend.note, hmap]
      exact h
  | some c =>
      rw [note_eq hmap, if_neg hret]
      exact ⟨h.mask, h.rearmed⟩

/-- A call that succeeds gives the context at `fd` the mask it asks for, and leaves the others. -/
theorem Masks.note (h : Masks b) (hmap : b'.ctxMap fd = some c)
    (hsame : b'.accepted = b.accepted ∧ b'.rearmed = b.rearmed)
    (hfailed : b'.rearm.failed = false → b.rearm.failed = false)
    (hmask : ∀ x', b'.heap c = some x' → x'.registeredMask = mask)
    (hothers : ∀ v ≠ c, b'.heap v = b.heap v) : Masks (b'.note fd mask 0) := by
  rw [note_eq hmap, if_pos rfl]
  refine ⟨fun hok v x' hx' => ?_, fun hok => ?_⟩
  · show x'.registeredMask = Function.update b'.accepted c mask v
    by_cases hv : v = c
    · rw [hv, Function.update_self]
      exact hmask x' (hv ▸ hx')
    · rw [Function.update_of_ne hv, hsame.1]
      have hx' : b'.heap v = some x' := hx'
      rw [hothers v hv] at hx'
      exact h.mask (hfailed hok) v x' hx'
  · show ∀ e ∈ b'.rearmed, _
    rw [hsame.2]
    exact h.rearmed (hfailed hok)

/-! ### The map -/

theorem mapRefs_update_of_ne {ctxMap : ℤ → Option ℕ} {v : Option ℕ} (hfd : ctxMap fd ≠ some c) (hv : v ≠ some c) :
    mapRefs (Function.update ctxMap fd v) c = mapRefs ctxMap c := by
  have hiff : (∃ fd', Function.update ctxMap fd v fd' = some c) ↔ ∃ fd', ctxMap fd' = some c := by
    refine exists_congr fun fd' => ?_
    by_cases heq : fd' = fd
    · rw [heq, Function.update_self]
      exact iff_of_false hv hfd
    · rw [Function.update_of_ne heq]
  classical exact if_congr hiff rfl rfl

theorem polls_eq_zero {ops : List UringOp} (h : (ops.map UringOp.ctx).count c = 0) : ops.count ⟨.pollAdd, c⟩ = 0 := by
  refine List.count_eq_zero.mpr fun hmem => List.count_eq_zero.mp h ?_
  exact List.mem_map_of_mem (f := UringOp.ctx) hmem

/-- What `event_backend_add` and `event_backend_add_timer` put into a new context. -/
structure New (x : SocketContext) (fd : ℤ) : Prop where
  fd_eq : x.fd = some fd
  closing : x.closing = false
  pollArmed : x.pollArmed = true
  rearmQueued : x.rearmQueued = false
  pendingOps : x.pendingOps = 0
  refCount : x.refCount = 1

theorem newSocket_new (fd : ℤ) (mask : Mask) : New (newSocket fd mask) fd := ⟨rfl, rfl, rfl, rfl, rfl, rfl⟩

theorem newTimer_new (fd : ℤ) : New (newTimer fd) fd := ⟨rfl, rfl, rfl, rfl, rfl, rfl⟩

/-- The new context is in the map, and its poll in flight. -/
theorem Inv.allocated (h : Inv b b.rearm.entries []) (hnew : New x fd) (hfree : b.ctxMap fd = none) (n : ℕ) :
    Inv { b with
        heap := Function.update b.heap b.nextCtx
          (some { x with refCount := x.refCount + 1, pendingOps := x.pendingOps + 1 })
        nextCtx := b.nextCtx + 1
        ctxMap := Function.update b.ctxMap fd (some b.nextCtx)
        sqes := n
        uringPendingTotal := b.uringPendingTotal + 1
        inFlight := b.inFlight ++ [⟨.pollAdd, b.nextCtx⟩] } b.rearm.entries [] := by
  obtain ⟨-, hqueue, hops, -⟩ := h.gone (h.fresh b.nextCtx le_rfl)
  have hpolls := polls_eq_zero hops
  have hmap : mapRefs (Function.update b.ctxMap fd (some b.nextCtx)) b.nextCtx = 1 :=
    mapRefs_eq_one (Function.update_self _ _ _)
  have hcount := hnew.refCount
  have hpending := hnew.pendingOps
  refine ⟨fun c => ?_, fun fd' c hc => ?_, fun c hc => ?_, ?_, fun e he => ?_, fun c hc hnone => ?_, h.count_le⟩
  · by_cases hc : c = b.nextCtx
    · subst hc
      dsimp only
      rw [Function.update_self]
      simp only [Backend.ops, List.map_append, List.count_append] at hops hpolls
      refine ⟨?_, ?_, ?_, ?_, fun _ => hnew.rearmQueued, ?_, fun _ => ?_, fun _ _ => hmap,
        fun _ _ _ _ => Or.inl hnew.pollArmed⟩
      · simp only [refs, hmap, hqueue, List.count_nil]
        omega
      · simp only [refs, Backend.ops, List.map_append, List.count_append, List.map_cons, List.map_nil,
          List.count_singleton_self]
        omega
      · simp only [refs, hqueue, hnew.rearmQueued, Bool.toNat_false]
      · simp only [refs, Backend.ops, List.count_append, List.count_singleton_self, hnew.pollArmed, Bool.toNat_true]
        omega
      · dsimp only
        omega
      · show x.fd.isSome = true
        rw [hnew.fd_eq]
        rfl
    · have hsame : refs (Function.update b.ctxMap fd (some b.nextCtx)) b.rearm.entries
          ((b.inFlight ++ [⟨.pollAdd, b.nextCtx⟩]) ++ b.cq.map Prod.fst) [] c =
            refs b.ctxMap b.rearm.entries b.ops [] c := by
        have hmap' : mapRefs (Function.update b.ctxMap fd (some b.nextCtx)) c = mapRefs b.ctxMap c :=
          mapRefs_update_of_ne (by simp [hfree]) (by simpa using Ne.symm hc)
        rw [← refs_submit b .pollAdd b.nextCtx c _ _ hc, refs, refs, hmap']
      have haccount := h.account c
      rw [← hsame] at haccount
      dsimp only
      rw [Function.update_of_ne hc]
      exact haccount
  · dsimp only at hc ⊢
    by_cases hfd : fd' = fd
    · rw [hfd, Function.update_self, Option.some.injEq] at hc
      rw [hfd, ← hc, Function.update_self]
      exact ⟨_, rfl, hnew.fd_eq⟩
    · rw [Function.update_of_ne hfd] at hc
      obtain ⟨y, hy, hyfd⟩ := h.fds fd' c hc
      refine ⟨y, ?_, hyfd⟩
      rw [Function.update_of_ne, hy]
      rintro rfl
      rw [h.fresh _ le_rfl] at hy
      exact absurd hy (by simp)
  · dsimp only at hc ⊢
    rw [Function.update_of_ne (by omega)]
    exact h.fresh c (by omega)
  · have htotal := h.total
    simp only [Backend.ops, List.length_append, List.length_map, List.length_singleton] at htotal ⊢
    push_cast at htotal ⊢
    omega
  · obtain ⟨hp, hq, hlt, hnone⟩ := h.freed e he
    refine ⟨hp, hq, Nat.lt_succ_of_lt hlt, ?_⟩
    dsimp only
    rw [Function.update_of_ne hlt.ne, hnone]
  · dsimp only at hc hnone ⊢
    by_cases hcc : c = b.nextCtx
    · rw [hcc, Function.update_self] at hnone
      exact absurd hnone (by simp)
    · rw [Function.update_of_ne hcc] at hnone
      exact h.logged c (by omega) hnone

/-- There was no free entry, and the new context is gone again. -/
theorem Inv.refused (h : Inv b b.rearm.entries []) (hnew : New x fd) (n : ℕ) :
    Inv { b with
        heap := Function.update b.heap b.nextCtx none
        nextCtx := b.nextCtx + 1
        sqes := n
        freed := b.freed ++ [(b.nextCtx, x)] } b.rearm.entries [] := by
  have hheap : Function.update b.heap b.nextCtx none = b.heap := by
    rw [← h.fresh b.nextCtx le_rfl, Function.update_eq_self]
  rw [hheap]
  refine ⟨h.account, h.fds, fun c hc => h.fresh c (by dsimp only at hc; omega), h.total, fun e he => ?_,
    fun c hc hnone => ?_, h.count_le⟩
  · rcases List.mem_append.mp he with he | he
    · obtain ⟨hp, hq, hlt, hnone⟩ := h.freed e he
      exact ⟨hp, hq, Nat.lt_succ_of_lt hlt, hnone⟩
    · obtain rfl := List.mem_singleton.mp he
      exact ⟨hnew.pendingOps, hnew.rearmQueued, Nat.lt_succ_self _, h.fresh _ le_rfl⟩
  · dsimp only at hc hnone ⊢
    by_cases hcc : c = b.nextCtx
    · exact ⟨x, by simp [hcc]⟩
    · obtain ⟨y, hy⟩ := h.logged c (by omega) hnone
      exact ⟨y, List.mem_append_left _ hy⟩

/-- **Registering**: a new context is in the map with its poll in flight, or it is gone. -/
theorem Inv.register (h : Inv b b.rearm.entries []) (hnew : New x fd) (env : Env) :
    ∃ a b', Uring.register env b fd x = some (a, b') ∧ Called b b' ∧
      (Masks b → (a.ret = 0 → Masks (b'.note fd x.registeredMask a.ret)) ∧ (a.ret ≠ 0 → Masks b')) := by
  have hfail : ∀ errno : ℤ, (Answer.fail errno).ret ≠ 0 := fun _ => by simp [Answer.fail]
  rw [Uring.register]
  by_cases hrange : fd < 0 ∨ 65536 ≤ fd
  · rw [if_pos hrange]
    exact ⟨_, b, rfl, h.called, fun hm => ⟨fun hret => absurd hret (hfail 0), fun _ => hm⟩⟩
  rw [if_neg hrange]
  by_cases htaken : (b.ctxMap fd).isSome = true
  · rw [if_pos htaken]
    exact ⟨_, b, rfl, h.called, fun hm => ⟨fun hret => absurd hret (hfail EEXIST), fun _ => hm⟩⟩
  rw [if_neg htaken]
  cases hsqe : env.getSqe b.sqes with
  | true =>
      have hsubmit := submitOp_eq (b := { b.set b.nextCtx x with nextCtx := b.nextCtx + 1, sqes := b.sqes + 1 })
        (Function.update_self _ _ _) .pollAdd
      simp only [Backend.set] at hsubmit
      simp only [getSqe, Backend.set, hsqe, if_true, Option.bind_eq_bind, hsubmit, Option.bind_some,
        Function.update_idem]
      refine ⟨_, _, rfl, ⟨h.allocated hnew (by simpa using htaken) _, List.prefix_rfl, id⟩,
        fun hm => ⟨fun _ => ?_, fun hret => absurd rfl hret⟩⟩
      refine hm.note (Function.update_self _ _ _) ⟨rfl, rfl⟩ id (fun x' hx' => ?_) fun v hv =>
        Function.update_of_ne hv _ _
      dsimp only at hx'
      rw [Function.update_self, Option.some.injEq] at hx'
      rw [← hx']
  | false =>
      have hrelease : Uring.release { b.set b.nextCtx x with nextCtx := b.nextCtx + 1, sqes := b.sqes + 1 } b.nextCtx =
          some { b with
            heap := Function.update b.heap b.nextCtx none
            nextCtx := b.nextCtx + 1
            sqes := b.sqes + 1
            freed := b.freed ++ [(b.nextCtx, x)] } := by
        simp only [Uring.release, Backend.set, Function.update_self, Option.bind_eq_bind, Option.bind_some,
          if_pos hnew.refCount, Function.update_idem]
      simp only [Backend.set] at hrelease
      simp only [getSqe, Backend.set, hsqe, Bool.false_eq_true, if_false, Option.bind_eq_bind, hrelease,
        Option.bind_some]
      refine ⟨_, _, rfl, ⟨h.refused hnew _, List.prefix_rfl, id⟩,
        fun hm => ⟨fun hret => absurd hret (hfail EAGAIN), fun _ => ⟨fun hok v y hy => ?_, hm.rearmed⟩⟩⟩
      dsimp only at hy
      rw [← h.fresh b.nextCtx le_rfl, Function.update_eq_self] at hy
      exact hm.mask hok v y hy

/-! ### Removing -/

/-- The map gives up its reference; the call holds it now. -/
theorem Inv.unmapped (h : Inv b b.rearm.entries []) (hmap : b.ctxMap fd = some c) (hx : b.heap c = some x)
    (isTimer : Bool) :
    Inv { b.set c { x with closing := true, sock := if isTimer = true then x.sock else none } with
      ctxMap := Function.update b.ctxMap fd none } b.rearm.entries [c] := by
  have hs := h.sound hx
  have hcount := hs.refCount_eq
  have hone : mapRefs b.ctxMap c = 1 := mapRefs_eq_one hmap
  obtain ⟨y, hy, hyfd⟩ := h.fds fd c hmap
  obtain rfl : x = y := Option.some.inj (hx.symm.trans hy)
  have hzero : mapRefs (Function.update b.ctxMap fd none) c = 0 := by
    refine mapRefs_eq_zero_iff.mpr fun fd' hfd' => ?_
    by_cases heq : fd' = fd
    · rw [heq, Function.update_self] at hfd'
      exact absurd hfd' (by simp)
    · rw [Function.update_of_ne heq] at hfd'
      obtain ⟨z, hz, hzfd⟩ := h.fds fd' c hfd'
      obtain rfl : x = z := Option.some.inj (hx.symm.trans hz)
      exact heq (Option.some.inj (hzfd.symm.trans hyfd))
  refine ⟨fun c' => ?_, fun fd' c' hc' => ?_, fun c' hc' => ?_, h.total, fun e he => ?_, fun c' hc' hnone => ?_,
    h.count_le⟩
  · by_cases hc' : c' = c
    · subst hc'
      simp only [Backend.set, Function.update_self]
      refine ⟨?_, hs.pendingOps_eq, hs.queue_eq, hs.polls_eq, hs.exclusive, hs.pos, fun hf => absurd hf (by simp),
        fun _ hf => absurd hf (by simp), fun _ hf => absurd hf (by simp)⟩
      simp only [refs, hone, List.count_nil] at hcount
      simp only [refs, hzero, List.count_singleton_self]
      push_cast at hcount ⊢
      omega
    · have hsame : refs (Function.update b.ctxMap fd none) b.rearm.entries b.ops [c] c' =
          refs b.ctxMap b.rearm.entries b.ops [] c' := by
        have hmap' : mapRefs (Function.update b.ctxMap fd none) c' = mapRefs b.ctxMap c' :=
          mapRefs_update_of_ne (by rw [hmap]; simpa using Ne.symm hc') (by simp)
        rw [refs, refs, hmap', List.count_singleton, if_neg (by simpa using Ne.symm hc'), List.count_nil]
      have haccount := h.account c'
      rw [← hsame] at haccount
      simp only [Backend.set]
      rw [Function.update_of_ne hc']
      exact haccount
  · simp only [Backend.set] at hc' ⊢
    have hne : fd' ≠ fd := by
      rintro rfl
      rw [Function.update_self] at hc'
      exact absurd hc' (by simp)
    rw [Function.update_of_ne hne] at hc'
    obtain ⟨z, hz, hzfd⟩ := h.fds fd' c' hc'
    refine ⟨z, ?_, hzfd⟩
    rw [Function.update_of_ne, hz]
    rintro rfl
    obtain rfl : x = z := Option.some.inj (hx.symm.trans hz)
    exact hne (Option.some.inj (hzfd.symm.trans hyfd))
  · simp only [Backend.set] at hc' ⊢
    rw [Function.update_of_ne, h.fresh c' hc']
    rintro rfl
    rw [h.fresh c' hc'] at hx
    exact absurd hx (by simp)
  · obtain ⟨hp, hq, hlt, hnone⟩ := h.freed e he
    refine ⟨hp, hq, hlt, ?_⟩
    simp only [Backend.set]
    rw [Function.update_of_ne, hnone]
    intro heq
    rw [heq, hx] at hnone
    exact absurd hnone (by simp)
  · simp only [Backend.set] at hc' hnone ⊢
    have hne : c' ≠ c := by
      rintro rfl
      rw [Function.update_self] at hnone
      exact absurd hnone (by simp)
    rw [Function.update_of_ne hne] at hnone
    exact h.logged c' hc' hnone

/-- The end of a removal. -/
theorem Inv.close (h : Inv b b.rearm.entries []) (hmap : b.ctxMap fd = some c) (hx : b.heap c = some x)
    (isTimer : Bool) :
    ∃ b', Uring.close b fd c isTimer = some (.done, b') ∧ Called b b' ∧ (Masks b → Masks b') := by
  obtain ⟨b', hrelease, hinv, hkeeps, hrearm, -⟩ :=
    (h.unmapped hmap hx isTimer).release_keeps (Function.update_self _ _ _) fun hf => absurd hf (by simp)
  have hrearm : b'.rearm = b.rearm := hrearm
  refine ⟨b', ?_, ⟨by rw [hrearm]; exact hinv, by rw [hrearm], by rw [hrearm]; exact id⟩, fun hm => hkeeps.masks ?_⟩
  · simp only [Uring.close, hx, Option.bind_eq_bind, Option.bind_some, hrelease]
  · exact ⟨(keeps_set hx { x with closing := true, sock := if isTimer = true then x.sock else none } rfl).masks hm
      |>.mask, hm.rearmed⟩

/-- **Removing** a registration. -/
theorem Inv.unregister (h : Inv b b.rearm.entries []) (env : Env) (fd : ℤ) (isTimer : Bool) :
    ∃ a b', Uring.unregister env b fd isTimer = some (a, b') ∧ Called b b' ∧ (Masks b → Masks b') := by
  rw [Uring.unregister]
  by_cases hrange : fd < 0 ∨ 65536 ≤ fd
  · rw [if_pos hrange]
    exact ⟨_, b, rfl, h.called, id⟩
  rw [if_neg hrange]
  cases hmap : b.ctxMap fd with
  | none => exact ⟨_, b, rfl, h.called, id⟩
  | some c =>
      obtain ⟨x, hx, -⟩ := h.fds fd c hmap
      simp only [hx, Option.bind_eq_bind, Option.bind_some]
      by_cases hclosing : x.closing = true
      · rw [if_pos hclosing]
        exact ⟨_, b, rfl, h.called, id⟩
      rw [if_neg hclosing]
      by_cases harmed : x.pollArmed = true
      · rw [if_pos harmed]
        obtain ⟨ok, n, hsqe⟩ := exists_getSqeRetry env b
        rw [hsqe]
        cases ok with
        | true =>
            have hsubmit : Inv _ b.rearm.entries [] :=
              (h.sqes n).submit hx .pollRemove x.registeredMask b.rearmed (by simpa using harmed)
            obtain ⟨b', hclose, hcalled, hmasks⟩ := Inv.close (c := c) hsubmit hmap (Function.update_self _ _ _) isTimer
            have heq := submitOp_eq (b := { b with sqes := n }) hx .pollRemove
            simp only [if_true, heq, Option.bind_some]
            refine ⟨.done, b', ?_, ⟨hcalled.inv, hcalled.entries, hcalled.failed⟩, fun hm => hmasks ?_⟩
            · rw [← hclose, Backend.set, Backend.set]
              simp only [harmed]
            · exact ⟨(keeps_set hx { x with
                pollArmed := true, refCount := x.refCount + 1, pendingOps := x.pendingOps + 1 } rfl).masks hm |>.mask,
                hm.rearmed⟩
        | false => exact ⟨_, _, rfl, ⟨h.sqes n, List.prefix_rfl, id⟩, fun hm => ⟨hm.mask, hm.rearmed⟩⟩
      · rw [if_neg harmed]
        obtain ⟨b', hclose, hcalled, hmasks⟩ := h.close hmap hx isTimer
        exact ⟨.done, b', hclose, hcalled, hmasks⟩

/-! ### Modifying -/

/-- **Modifying** a registration: the context has the mask then, or the call fails. -/
theorem Inv.modify (h : Inv b b.rearm.entries []) (env : Env) (fd : ℤ) (mask : Mask) :
    ∃ a b', eventBackendModify env b fd mask = some (a, b') ∧ Called b b' ∧
      (Masks b → Masks (b'.note fd mask a.ret)) := by
  have hfail : ∀ errno : ℤ, (Answer.fail errno).ret ≠ 0 := fun _ => by simp [Answer.fail]
  rw [eventBackendModify]
  by_cases hrange : fd < 0 ∨ 65536 ≤ fd
  · rw [if_pos hrange]
    exact ⟨_, b, rfl, h.called, fun hm => hm.note_of_ne fd mask (hfail 0)⟩
  rw [if_neg hrange]
  cases hmap : b.ctxMap fd with
  | none => exact ⟨_, b, rfl, h.called, fun hm => hm.note_of_ne fd mask (hfail 0)⟩
  | some c =>
      obtain ⟨x, hx, -⟩ := h.fds fd c hmap
      have hs := h.sound hx
      simp only [hx, Option.bind_eq_bind, Option.bind_some]
      by_cases hclosing : x.closing = true
      · rw [if_pos hclosing]
        exact ⟨_, b, rfl, h.called, fun hm => hm.note_of_ne fd mask (hfail 0)⟩
      rw [if_neg hclosing]
      by_cases harmed : x.pollArmed = false
      · rw [if_pos harmed]
        by_cases hwanted : mask ≠ 0 ∧ x.rearmQueued = false
        · rw [if_pos hwanted]
          rw [← List.append_nil b.rearm.entries] at h
          obtain ⟨ok, b', hrequeue, hinv, hr⟩ := h.requeue hx harmed hwanted.2 mask env
          rw [List.append_nil] at hinv
          obtain ⟨hctx, -, haccepted, hrearmed, -⟩ := hr.same
          obtain ⟨y, hheap, -, hmask, -⟩ := hr.heap
          simp only [hrequeue, Option.bind_some]
          have hcalled : Called b b' := ⟨hinv, hr.grows.entries, hr.grows.failed⟩
          cases ok with
          | true =>
              refine ⟨.done, b', rfl, hcalled, fun hm => hm.note (by rw [hctx, hmap]) ⟨haccepted, hrearmed⟩
                hr.grows.failed (fun x' hx' => ?_) fun v hv => by rw [hheap, Function.update_of_ne hv]⟩
              rw [hheap, Function.update_self, Option.some.injEq] at hx'
              rw [← hx', hmask]
          | false =>
              have hfailed := hr.failed rfl
              refine ⟨.fail ENOMEM, b', rfl, hcalled, fun _ => Masks.note_of_ne ⟨fun hok => ?_, fun hok => ?_⟩ fd mask
                (hfail ENOMEM)⟩
              · exact absurd hfailed (by simp [hok])
              · exact absurd hfailed (by simp [hok])
        · rw [if_neg hwanted]
          refine ⟨.done, _, rfl, ⟨?_, List.prefix_rfl, id⟩, fun hm => hm.note hmap ⟨rfl, rfl⟩ id (fun x' hx' => ?_)
            fun v hv => Function.update_of_ne hv _ _⟩
          · refine h.change hx { x with registeredMask := mask } rfl ⟨rfl, rfl, rfl, rfl⟩ (fun _ _ => rfl) id ?_ h.total
              h.count_le
            refine { hs with registered := fun _ _ _ hmask => Or.inr ?_ }
            by_contra hq
            exact hwanted ⟨hmask, by simpa using hq⟩
          · rw [set_heap, Function.update_self, Option.some.injEq] at hx'
            rw [← hx']
      · rw [if_neg harmed]
        have harmed : x.pollArmed = true := by simpa using harmed
        obtain ⟨ok, n, hsqe⟩ := exists_getSqeRetry env b
        rw [hsqe]
        cases ok with
        | true =>
            have hsubmit := (h.sqes n).submit hx .pollUpdate mask b.rearmed (by simpa using harmed)
            have heq := submitOp_eq (b := { b with sqes := n }) hx .pollUpdate
            simp only [if_true, heq, Option.bind_some, Backend.set, Function.update_self, Function.update_idem]
            refine ⟨.done, _, rfl, ⟨?_, List.prefix_rfl, id⟩, fun hm => hm.note hmap ⟨rfl, rfl⟩ id (fun x' hx' => ?_)
              fun v hv => Function.update_of_ne hv _ _⟩
            · simp only [Backend.set] at hsubmit
              simp only [harmed]
              exact hsubmit
            · dsimp only at hx'
              rw [Function.update_self, Option.some.injEq] at hx'
              rw [← hx']
        | false =>
            refine ⟨_, _, rfl, ⟨h.sqes n, List.prefix_rfl, id⟩, fun hm => ?_⟩
            have hm' : Masks { b with sqes := n } := ⟨hm.mask, hm.rearmed⟩
            exact hm'.note_of_ne fd mask (hfail EAGAIN)

/-! ### One call -/

theorem inv_init : Inv eventBackendInit eventBackendInit.rearm.entries [] where
  account c := by
    have hzero : mapRefs eventBackendInit.ctxMap c = 0 := mapRefs_eq_zero_iff.mpr fun _ => by simp [eventBackendInit]
    exact ⟨hzero, rfl, rfl, rfl⟩
  fds fd c hc := absurd hc (by simp [eventBackendInit])
  fresh _ _ := rfl
  total := rfl
  freed e he := absurd he List.not_mem_nil
  logged c hc := absurd hc (Nat.not_lt_zero c)
  count_le := Nat.zero_le _

theorem masks_init : Masks eventBackendInit where
  mask _ c x hx := absurd hx (by simp [eventBackendInit])
  rearmed _ e he := absurd he List.not_mem_nil

def Call.isWait : Call → Bool
  | .wait _ => true
  | _ => false

/-- Registering, with the mask that the call asks for noted if it succeeds. -/
theorem Inv.register_note (h : Inv b b.rearm.entries []) (hnew : New x fd) (env : Env) :
    ∃ a b', Uring.register env b fd x = some (a, b') ∧
      Called b (if a.ret = 0 then b'.note fd x.registeredMask a.ret else b') ∧
      (Masks b → Masks (if a.ret = 0 then b'.note fd x.registeredMask a.ret else b')) := by
  obtain ⟨a, b', hreg, hc, hmasks⟩ := h.register hnew env
  refine ⟨a, b', hreg, ?_, fun hm => ?_⟩
  · split_ifs
    · exact hc.note fd x.registeredMask a.ret
    · exact hc
  · split_ifs with hret
    · exact (hmasks hm).1 hret
    · exact (hmasks hm).2 hret

/-- **One call or completion** keeps the accounts and the masks, and only a wait takes contexts out of the
queue. -/
theorem Inv.exec (h : Inv b b.rearm.entries []) (env : Env) (call : Call) :
    ∃ a b', Uring.exec env b call = some (a, b') ∧ Inv b' b'.rearm.entries [] ∧
      (b'.rearm.failed = false → b.rearm.failed = false) ∧ (Masks b → Masks b') ∧
      (call.isWait = false → b.rearm.entries <+: b'.rearm.entries) := by
  cases call with
  | add fd mask =>
      obtain ⟨a, b', hreg, hc, hmasks⟩ := h.register_note (newSocket_new fd mask) env
      refine ⟨a, _, ?_, hc.inv, hc.failed, hmasks, fun _ => hc.entries⟩
      simp only [Uring.exec, eventBackendAdd, hreg, Option.bind_eq_bind, Option.bind_some]
      rfl
  | modify fd mask =>
      obtain ⟨a, b', hmod, hc, hmasks⟩ := h.modify env fd mask
      have hn := hc.note fd mask a.ret
      refine ⟨a, b'.note fd mask a.ret, ?_, hn.inv, hn.failed, hmasks, fun _ => hn.entries⟩
      simp only [Uring.exec, hmod, Option.bind_eq_bind, Option.bind_some]
  | remove fd =>
      obtain ⟨a, b', hun, hc, hmasks⟩ := h.unregister env fd false
      exact ⟨a, b', hun, hc.inv, hc.failed, hmasks, fun _ => hc.entries⟩
  | addTimer fd =>
      obtain ⟨a, b', hreg, hc, hmasks⟩ := h.register_note (newTimer_new fd) env
      refine ⟨a, _, ?_, hc.inv, hc.failed, hmasks, fun _ => hc.entries⟩
      simp only [Uring.exec, eventBackendAddTimer, hreg, Option.bind_eq_bind, Option.bind_some]
      rfl
  | removeTimer fd =>
      obtain ⟨a, b', hun, hc, hmasks⟩ := h.unregister env fd true
      exact ⟨a, b', hun, hc.inv, hc.failed, hmasks, fun _ => hc.entries⟩
  | wait w =>
      obtain ⟨a, b', hwait, hinv, hkeeps, -⟩ := h.wait env w
      exact ⟨a, b', hwait, hinv, hkeeps.failed, hkeeps.masks, fun hf => absurd hf (by simp [Call.isWait])⟩
  | complete k res =>
      obtain ⟨hinv, hkeeps, hrearm⟩ := h.complete k res
      exact ⟨.done, Uring.complete b k res, rfl, by rw [hrearm]; exact hinv, hkeeps.failed, hkeeps.masks,
        fun _ => by rw [hrearm]⟩

/-! ### Runs -/

/-- **A run** never fails, and keeps the accounts and the masks. -/
theorem Inv.run (h : Inv b b.rearm.entries []) (hm : Masks b) (env : Env) (calls : List Call) :
    ∃ b', Uring.run env b calls = some b' ∧ Inv b' b'.rearm.entries [] ∧ Masks b' ∧
      ((∀ call ∈ calls, call.isWait = false) → b.rearm.entries <+: b'.rearm.entries) := by
  induction calls generalizing b with
  | nil => exact ⟨b, rfl, h, hm, fun _ => List.prefix_rfl⟩
  | cons call calls ih =>
      obtain ⟨a, b₁, hexec, hinv, -, hmasks, hentries⟩ := h.exec env call
      obtain ⟨b₂, hrun, hinv₂, hm₂, hentries₂⟩ := ih hinv (hmasks hm)
      refine ⟨b₂, ?_, hinv₂, hm₂, fun hno => ?_⟩
      · simp only [Uring.run, hexec, Option.bind_eq_bind, Option.bind_some, hrun]
      · exact (hentries (hno call List.mem_cons_self)).trans
          (hentries₂ fun c hc => hno c (List.mem_cons_of_mem _ hc))

/-- The operations are those of the live contexts. -/
theorem Inv.total_eq (h : Inv b b.rearm.entries []) :
    b.uringPendingTotal = ∑ c ∈ Finset.range b.nextCtx, (b.heap c).elim 0 SocketContext.pendingOps := by
  have hcard : ∑ c ∈ Finset.range b.nextCtx, (b.ops.map UringOp.ctx).count c = b.ops.length := by
    have hms : ∀ c ∈ (b.ops.map UringOp.ctx : Multiset ℕ), c ∈ Finset.range b.nextCtx := by
      intro c hc
      obtain ⟨op, hop, rfl⟩ := List.mem_map.mp (Multiset.mem_coe.mp hc)
      obtain ⟨x, hx⟩ := h.exists_of_mem_ops hop
      refine Finset.mem_range.mpr ?_
      by_contra hlt
      rw [h.fresh _ (not_lt.mp hlt)] at hx
      exact absurd hx (by simp)
    have hsum := Multiset.sum_count_eq_card hms
    simpa using hsum
  rw [h.total, ← hcard]
  push_cast
  refine Finset.sum_congr rfl fun c _ => ?_
  cases hx : b.heap c with
  | none =>
      rw [(h.gone hx).2.2.1]
      rfl
  | some x => exact (h.sound hx).pendingOps_eq.symm

/-- A context in the map is live, also the context of an event. -/
theorem Inv.exists_of_map (h : Inv b b.rearm.entries []) (hmap : mapRefs b.ctxMap c = 1) :
    ∃ x, b.heap c = some x := by
  cases hx : b.heap c with
  | some x => exact ⟨x, rfl⟩
  | none =>
      have hzero := (h.gone hx).1
      omega

/-- The counters of the code are `int`s. They have room for a call: it adds an operation of its own and one for
each poll in the queue, and a context has the references of its operations, of the map and of the queue, and
two of the call at most. -/
def Backend.HasRoom (b : Backend) : Prop := FitsInt (b.ops.length + b.rearm.count + 5)

instance (b : Backend) : Decidable b.HasRoom := inferInstanceAs (Decidable (FitsInt _))

/-- Every call of a run finds room in the counters. -/
def Roomy (env : Env) (b : Backend) (calls : List Call) : Prop :=
  ∀ n ≤ calls.length, ∀ b' ∈ run env b (calls.take n), b'.HasRoom

instance (env : Env) (b : Backend) (calls : List Call) : Decidable (Roomy env b calls) :=
  inferInstanceAs (Decidable (∀ n ≤ _, _))

theorem Roomy.hasRoom (h : Roomy env b calls) (hrun : run env b calls = some b') : b'.HasRoom :=
  h calls.length le_rfl b' (by rwa [List.take_length])

/-- The counters of a backend with room are in range. -/
theorem Inv.fitsInt (h : Inv b b.rearm.entries []) (hroom : b.HasRoom) :
    FitsInt b.uringPendingTotal ∧ ∀ c x, b.heap c = some x → FitsInt x.pendingOps ∧ FitsInt x.refCount := by
  rw [Backend.HasRoom, FitsInt] at hroom
  refine ⟨?_, fun c x hx => ?_⟩
  · rw [h.total, FitsInt]
    omega
  · have hs := h.sound hx
    have hcount := hs.refCount_eq
    have hpending := hs.pendingOps_eq
    have hqueue := hs.queue_eq
    have hops : (b.ops.map UringOp.ctx).count c ≤ b.ops.length := by
      rw [← List.length_map UringOp.ctx]
      exact List.count_le_length
    have hmap : mapRefs b.ctxMap c ≤ 1 := by
      rw [mapRefs]
      split_ifs <;> omega
    have hqueued := Bool.toNat_le x.rearmQueued
    simp only [refs, List.count_nil] at hcount hpending hqueue
    rw [FitsInt, FitsInt]
    omega

/-- **Who owns the contexts**, after any order of calls and completions that the counters have room for. No call
uses a context that is gone. The count of a live context is that of its references; the total is that of all
operations; a context that has been allocated is live, or has gone without any reference; and the context of an
event of a socket is live, until the next wait if it still waits for events. -/
theorem context_accounting (env : Env) (calls : List Call) (hroom : Roomy env eventBackendInit calls) :
    ∃ b, run env eventBackendInit calls = some b ∧
      (∀ c x, b.heap c = some x →
        x.refCount = mapRefs b.ctxMap c + x.pendingOps + (if x.rearmQueued = true then 1 else 0) ∧
        0 < x.refCount ∧ c < b.nextCtx ∧
        x.pendingOps = (b.ops.map UringOp.ctx).count c ∧ (x.rearmQueued = true ↔ c ∈ b.rearm.entries) ∧
        FitsInt x.pendingOps ∧ FitsInt x.refCount) ∧
      (b.uringPendingTotal = ∑ c ∈ Finset.range b.nextCtx, (b.heap c).elim 0 SocketContext.pendingOps ∧
        FitsInt b.uringPendingTotal) ∧
      (∀ c < b.nextCtx, b.heap c = none → ∃ x, (c, x) ∈ b.freed) ∧
      (∀ e ∈ b.freed, mapRefs b.ctxMap e.1 = 0 ∧ e.2.pendingOps = 0 ∧ e.2.rearmQueued = false) ∧
      ∀ w, ∃ a b', exec env b (.wait w) = some (a, b') ∧
        ∀ e ∈ a.events, ∀ c, e.source = .socket c → ∃ x, b'.heap c = some x ∧
          (x.registeredMask ≠ 0 → ∀ calls', (∀ call ∈ calls', call.isWait = false) → Roomy env b' calls' →
            ∃ b'' y, run env b' calls' = some b'' ∧ b''.heap c = some y) := by
  obtain ⟨b, hrun, h, hm, -⟩ := inv_init.run masks_init env calls
  obtain ⟨htotal, hfits⟩ := h.fitsInt (hroom.hasRoom hrun)
  refine ⟨b, hrun, fun c x hx => ?_, ⟨h.total_eq, htotal⟩, h.logged, fun e he => ?_, fun w => ?_⟩
  · have hs := h.sound hx
    have hcount := hs.refCount_eq
    have hqueue := hs.queue_eq
    simp only [refs, List.count_nil] at hcount hqueue
    refine ⟨?_, hs.pos, ?_, hs.pendingOps_eq, ?_, hfits c x hx⟩
    · rw [hcount, hqueue]
      cases x.rearmQueued <;> simp
    · by_contra hlt
      rw [h.fresh c (not_lt.mp hlt)] at hx
      exact absurd hx (by simp)
    · rw [← List.count_pos_iff, hqueue]
      cases x.rearmQueued <;> simp
  · obtain ⟨hpending, hqueued, -, hnone⟩ := h.freed e he
    exact ⟨(h.gone hnone).1, hpending, hqueued⟩
  · obtain ⟨a, b', hwait, hinv, hkeeps, hevents⟩ := h.wait env w
    refine ⟨a, b', hwait, fun e he c hc => ?_⟩
    obtain ⟨hmap, hqueued⟩ := hevents e he c hc
    obtain ⟨x, hx⟩ := hinv.exists_of_map hmap
    refine ⟨x, hx, fun hmask calls' hno _ => ?_⟩
    obtain ⟨b'', hrun'', hinv'', -, hentries⟩ := hinv.run (hkeeps.masks hm) env calls'
    obtain ⟨y, hy⟩ := hinv''.exists_of_mem_queue ((hentries hno).subset (hqueued rfl x hx hmask))
    exact ⟨b'', y, hrun'', hy⟩

/-- A socket is registered, its poll completes, and the wait returns its event. -/
theorem context_accounting_sample :
    ∃ b, run ⟨fun _ => true, fun _ => true⟩ eventBackendInit
        [.add 5 EVENT_READ, .complete 0 1, .wait ⟨8, 0, 0, []⟩] = some b ∧ FitsInt b.uringPendingTotal := by
  obtain ⟨b, hrun, -, ⟨-, htotal⟩, -⟩ := context_accounting ⟨fun _ => true, fun _ => true⟩
    [.add 5 EVENT_READ, .complete 0 1, .wait ⟨8, 0, 0, []⟩] (by decide +kernel)
  exact ⟨b, hrun, htotal⟩

/-- **No registration is lost**: while the queue can be enlarged, a context of the map that is not closing and
waits for events has either its poll in flight or is in the queue, once, and it has the mask of the latest call
that has succeeded. That mask is the one a poll is armed with again. -/
theorem registrations_kept (env : Env) (calls : List Call) (b : Backend)
    (hrun : run env eventBackendInit calls = some b) (hok : b.rearm.failed = false) :
    (∀ fd c, b.ctxMap fd = some c → ∃ x, b.heap c = some x ∧ x.registeredMask = b.accepted c ∧
      (x.closing = false → x.registeredMask ≠ 0 →
        (x.pollArmed = true ∧ b.ops.count ⟨.pollAdd, c⟩ = 1 ∧ x.rearmQueued = false ∧ c ∉ b.rearm.entries) ∨
        (x.pollArmed = false ∧ b.ops.count ⟨.pollAdd, c⟩ = 0 ∧ x.rearmQueued = true ∧
          b.rearm.entries.count c = 1))) ∧
      ∀ e ∈ b.rearmed, e.armed = pollMask e.accepted := by
  obtain ⟨b', hrun', h, hm, -⟩ := inv_init.run masks_init env calls
  obtain rfl : b = b' := Option.some.inj (hrun.symm.trans hrun')
  refine ⟨fun fd c hc => ?_, hm.rearmed hok⟩
  obtain ⟨x, hx, -⟩ := h.fds fd c hc
  have hs := h.sound hx
  have hpolls := hs.polls_eq
  have hqueue := hs.queue_eq
  simp only [refs] at hpolls hqueue
  refine ⟨x, hx, hm.mask hok c x hx, fun hclosing hmask => ?_⟩
  rcases hs.registered rfl hclosing hok hmask with harmed | hqueued
  · have hnot := hs.exclusive harmed
    rw [harmed, Bool.toNat_true] at hpolls
    rw [hnot, Bool.toNat_false] at hqueue
    exact Or.inl ⟨harmed, hpolls, hnot, List.count_eq_zero.mp hqueue⟩
  · have hnot : x.pollArmed = false := by
      by_contra harmed
      rw [hs.exclusive (by simpa using harmed)] at hqueued
      exact absurd hqueued (by simp)
    rw [hnot, Bool.toNat_false] at hpolls
    rw [hqueued, Bool.toNat_true] at hqueue
    exact Or.inr ⟨hnot, hpolls, hqueued, hqueue⟩

/-- A socket is registered for reading, its poll completes, and it is armed again by the second wait. -/
theorem registrations_kept_sample :
    ∃ b, run ⟨fun _ => true, fun _ => true⟩ eventBackendInit
        [.add 5 EVENT_READ, .modify 5 EVENT_WRITE, .complete 0 1, .wait ⟨8, 0, 0, []⟩, .wait ⟨8, 0, 0, []⟩] = some b ∧
      ∀ e ∈ b.rearmed, e.armed = pollMask e.accepted :=
  ⟨_, rfl, (registrations_kept ⟨fun _ => true, fun _ => true⟩
    [.add 5 EVENT_READ, .modify 5 EVENT_WRITE, .complete 0 1, .wait ⟨8, 0, 0, []⟩, .wait ⟨8, 0, 0, []⟩] _ rfl rfl).2⟩

/-- There is no free entry for the update of a poll, so `event_backend_modify` fails, and the poll is armed again
with the mask from before. -/
theorem registrations_kept_refused :
    ∃ b, run ⟨fun _ => true, fun n => n = 0 || n = 3⟩ eventBackendInit
        [.add 5 EVENT_READ, .modify 5 EVENT_WRITE, .complete 0 1, .wait ⟨8, 0, 0, []⟩, .wait ⟨8, 0, 0, []⟩] = some b ∧
      b.rearm.failed = false ∧ ∃ e ∈ b.rearmed, e.armed ≠ pollMask e.passed :=
  ⟨_, rfl, rfl, ⟨0, pollMask EVENT_READ, EVENT_WRITE, EVENT_READ⟩, List.Mem.head [],
    by simp [pollMask, EVENT_READ, EVENT_WRITE, POLLIN, POLLOUT]⟩

end Uring
