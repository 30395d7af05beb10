import LibCore.UringAccounts

/-!
# The Steps of the `io_uring` Backend

What the parts of the calls do to the accounts: an operation is prepared or consumed, a context enters the queue
of polls to be armed again or leaves it. The queue is drained in place: the loop reads the slot at its index
after the slots before it may have been written again.

## Main definitions

* `Grows`: what an entry does to the queue.
* `Keeps`: what the parts of a wait leave as it is.

## Main results

* `Inv.submit`, `Inv.requeue`, `Inv.unqueue`, `Inv.consume`: the parts of the calls.
-/

namespace Uring

variable {env : Env} {b b' b'' : Backend} {queue rest held : List ℕ} {c : ℕ} {x : SocketContext}

/-! ### The queue -/

/-- At most one context has entered the queue, behind the others. -/
structure Grows (q q' : RearmQueue) : Prop where
  entries : q.entries <+: q'.entries
  count_le : q'.count ≤ q.count + 1
  pending : ∀ j, q.count < j → q'.pending j = q.pending j
  failed : q'.failed = false → q.failed = false

theorem Grows.refl (q : RearmQueue) : Grows q q where
  entries := List.prefix_rfl
  count_le := Nat.le_succ _
  pending _ _ := rfl
  failed h := h

theorem entries_push (q : RearmQueue) (c : ℕ) : (q.push c).entries = q.entries ++ [c] := by
  rw [RearmQueue.entries, RearmQueue.entries, RearmQueue.push]
  dsimp only
  rw [List.range_succ, List.map_append, List.map_singleton, Function.update_self]
  congr 1
  refine List.map_congr_left fun j hj => ?_
  rw [Function.update_of_ne (List.mem_range.mp hj).ne]

theorem Grows.push (q : RearmQueue) (c : ℕ) : Grows q (q.push c) where
  entries := ⟨[c], (entries_push q c).symm⟩
  count_le := le_rfl
  pending _ hj := Function.update_of_ne hj.ne' _ _
  failed h := h

/-- The context is in the queue, or the queue could not be enlarged. -/
theorem addToRearmQueue_spec (env : Env) (q : RearmQueue) (c : ℕ) (hle : q.count ≤ q.capacity) :
    Grows q (addToRearmQueue env q c).2 ∧
      (addToRearmQueue env q c).2.count ≤ (addToRearmQueue env q c).2.capacity ∧
      ((addToRearmQueue env q c).1 = true → (addToRearmQueue env q c).2.entries = q.entries ++ [c]) ∧
      ((addToRearmQueue env q c).1 = false →
        (addToRearmQueue env q c).2.entries = q.entries ∧ (addToRearmQueue env q c).2.failed = true) := by
  rw [addToRearmQueue]
  split_ifs with hfull hroom
  · have hcap : q.count + 1 ≤ newCap q.capacity := by
      rw [newCap]
      split_ifs <;> omega
    have hgrows := Grows.push { q with capacity := newCap q.capacity, reallocs := q.reallocs + 1 } c
    exact ⟨⟨hgrows.entries, hgrows.count_le, hgrows.pending, hgrows.failed⟩, hcap,
      fun _ => entries_push { q with capacity := newCap q.capacity, reallocs := q.reallocs + 1 } c,
      fun h => absurd h (by simp)⟩
  · exact ⟨⟨List.prefix_rfl, Nat.le_succ _, fun _ _ => rfl, fun h => absurd h (by simp)⟩, hle,
      fun h => absurd h (by simp), fun _ => ⟨rfl, rfl⟩⟩
  · exact ⟨.push q c, by rw [RearmQueue.push]; dsimp only; omega, fun _ => entries_push q c,
      fun h => absurd h (by simp)⟩

/-! ### What is kept -/

/-- The masks of the contexts are those that calls have asked for, and the polls were armed with them, unless
the queue could not be enlarged. -/
structure Masks (b : Backend) : Prop where
  mask : b.rearm.failed = false → ∀ c x, b.heap c = some x → x.registeredMask = b.accepted c
  rearmed : b.rearm.failed = false → ∀ e ∈ b.rearmed, e.armed = pollMask e.accepted

/-- What the parts of a wait leave as it is. -/
structure Keeps (b b' : Backend) : Prop where
  ctxMap : b'.ctxMap = b.ctxMap
  nextCtx : b'.nextCtx = b.nextCtx
  failed : b'.rearm.failed = false → b.rearm.failed = false
  mask : ∀ c x', b'.heap c = some x' → ∃ x, b.heap c = some x ∧ x'.registeredMask = x.registeredMask
  masks : Masks b → Masks b'

theorem Keeps.refl (b : Backend) : Keeps b b where
  ctxMap := rfl
  nextCtx := rfl
  failed h := h
  mask _ x' hx' := ⟨x', hx', rfl⟩
  masks h := h

theorem Keeps.trans (h : Keeps b b') (h' : Keeps b' b'') : Keeps b b'' where
  ctxMap := h'.ctxMap.trans h.ctxMap
  nextCtx := h'.nextCtx.trans h.nextCtx
  failed hf := h.failed (h'.failed hf)
  mask c x'' hx'' := by
    obtain ⟨x', hx', heq'⟩ := h'.mask c x'' hx''
    obtain ⟨x, hx, heq⟩ := h.mask c x' hx'
    exact ⟨x, hx, heq'.trans heq⟩
  masks hm := h'.masks (h.masks hm)

/-- A change that leaves the masks alone. -/
theorem keeps_of_mask (hb : b'.ctxMap = b.ctxMap ∧ b'.nextCtx = b.nextCtx ∧ b'.accepted = b.accepted)
    (hfailed : b'.rearm.failed = false → b.rearm.failed = false)
    (hmask : ∀ c x', b'.heap c = some x' → ∃ x, b.heap c = some x ∧ x'.registeredMask = x.registeredMask)
    (hrearmed : Masks b → b'.rearm.failed = false → ∀ e ∈ b'.rearmed, e ∈ b.rearmed ∨ e.armed = pollMask e.accepted) :
    Keeps b b' where
  ctxMap := hb.1
  nextCtx := hb.2.1
  failed := hfailed
  mask := hmask
  masks h := by
    refine ⟨fun hf c x' hx' => ?_, fun hf e he => ?_⟩
    · obtain ⟨x, hx, heq⟩ := hmask c x' hx'
      rw [heq, hb.2.2]
      exact h.mask (hfailed hf) c x hx
    · exact (hrearmed h hf e he).elim (h.rearmed (hfailed hf) e) id

/-- The mask of every context is as before when only one context has changed, and not in its mask. -/
theorem mask_update (hx : b.heap c = some x) {x' : SocketContext}
    (hb : b'.heap = Function.update b.heap c (some x')) (hmask : x'.registeredMask = x.registeredMask) :
    ∀ v y', b'.heap v = some y' → ∃ y, b.heap v = some y ∧ y'.registeredMask = y.registeredMask := by
  intro v y' hy'
  rw [hb] at hy'
  by_cases hv : v = c
  · rw [hv, Function.update_self, Option.some.injEq] at hy'
    exact ⟨x, hv ▸ hx, hy' ▸ hmask⟩
  · rw [Function.update_of_ne hv] at hy'
    exact ⟨y', hy', rfl⟩

theorem keeps_set (hx : b.heap c = some x) (x' : SocketContext) (hmask : x'.registeredMask = x.registeredMask) :
    Keeps b (b.set c x') :=
  keeps_of_mask ⟨rfl, rfl, rfl⟩ id (mask_update hx rfl hmask) fun _ _ _ he => Or.inl he

/-! ### Operations -/

@[simp] theorem set_heap (b : Backend) (c : ℕ) (x : SocketContext) :
    (b.set c x).heap = Function.update b.heap c (some x) := rfl

@[simp] theorem set_set (b : Backend) (c : ℕ) (x y : SocketContext) : (b.set c x).set c y = b.set c y := by
  simp [Backend.set]

theorem set_self (hx : b.heap c = some x) : b.set c x = b := by
  rw [Backend.set, ← hx, Function.update_eq_self]

theorem submitOp_eq (hx : b.heap c = some x) (type : OpType) :
    submitOp b type c = some { b.set c { x with refCount := x.refCount + 1, pendingOps := x.pendingOps + 1 } with
      uringPendingTotal := b.uringPendingTotal + 1, inFlight := b.inFlight ++ [⟨type, c⟩] } := by
  simp only [submitOp, retain, hx, Option.bind_eq_bind, Option.bind_some, Backend.set, Function.update_self,
    Function.update_idem]

theorem requeue_eq (env : Env) (hx : b.heap c = some x) :
    requeue env b c = some ((addToRearmQueue env b.rearm c).1,
      if (addToRearmQueue env b.rearm c).1 = true then
        { b with rearm := (addToRearmQueue env b.rearm c).2 }.set c
          { x with refCount := x.refCount + 1, rearmQueued := true }
      else { b with rearm := (addToRearmQueue env b.rearm c).2 }) := by
  rw [requeue]
  generalize addToRearmQueue env b.rearm c = r
  obtain ⟨_ | _, q⟩ := r
  · rfl
  · simp only [retain, hx, Option.bind_eq_bind, Option.bind_some, set_heap, Function.update_self, set_set, if_true]

/-- The number of calls of `io_uring_get_sqe` is all that changes. -/
theorem exists_getSqeRetry (env : Env) (b : Backend) :
    ∃ ok n, getSqeRetry env b = (ok, { b with sqes := n }) := by
  rw [getSqeRetry]
  split_ifs
  · exact ⟨_, _, rfl⟩
  · exact ⟨_, _, rfl⟩

theorem Inv.sqes (h : Inv b queue held) (n : ℕ) : Inv { b with sqes := n } queue held :=
  ⟨h.account, h.fds, h.fresh, h.total, h.freed, h.logged, h.count_le⟩

theorem keeps_sqes (b : Backend) (n : ℕ) : Keeps b { b with sqes := n } :=
  keeps_of_mask ⟨rfl, rfl, rfl⟩ id (fun _ x' hx' => ⟨x', hx', rfl⟩) fun _ _ _ he => Or.inl he

theorem refs_submit (b : Backend) (type : OpType) (c c' : ℕ) (queue held : List ℕ) (hc' : c' ≠ c) :
    refs b.ctxMap queue ((b.inFlight ++ [⟨type, c⟩]) ++ b.cq.map Prod.fst) held c' =
      refs b.ctxMap queue b.ops held c' := by
  simp [refs, Backend.ops, Ne.symm hc']

/-- **An operation is prepared** for a context; afterwards a poll is in flight. -/
theorem Inv.submit (h : Inv b queue held) (hx : b.heap c = some x) (type : OpType) (mask : Mask)
    (log : List Rearm)
    (htype : if type = .pollAdd then x.pollArmed = false ∧ x.rearmQueued = false else x.pollArmed = true) :
    Inv { b.set c { x with
            registeredMask := mask, pollArmed := true
            refCount := x.refCount + 1, pendingOps := x.pendingOps + 1 } with
          uringPendingTotal := b.uringPendingTotal + 1
          inFlight := b.inFlight ++ [⟨type, c⟩]
          rearmed := log } queue held := by
  have hs := h.sound hx
  have hcount := hs.refCount_eq
  have hpending := hs.pendingOps_eq
  have hpolls := hs.polls_eq
  have hqueue := hs.queue_eq
  simp only [refs] at hcount hpending hpolls hqueue
  refine h.change hx { x with
    registeredMask := mask, pollArmed := true, refCount := x.refCount + 1, pendingOps := x.pendingOps + 1 } rfl
    ⟨rfl, rfl, rfl, rfl⟩ (fun c' hc' => refs_submit b type c c' queue held hc') id ?_ ?_ h.count_le
  · refine ⟨?_, ?_, hqueue, ?_, fun _ => ?_, ?_, hs.fd_isSome, hs.mapped, fun _ _ _ _ => Or.inl rfl⟩
    · simp only [refs]
      omega
    · simp only [refs, Backend.ops, Backend.set, List.map_append, List.count_append, List.map_cons, List.map_nil,
        List.count_singleton_self] at hpending ⊢
      omega
    · simp only [refs, Backend.ops, Backend.set, List.count_append] at hpolls ⊢
      split_ifs at htype with hadd
      · rw [hadd, List.count_singleton_self]
        rw [htype.1, Bool.toNat_false] at hpolls
        rw [Bool.toNat_true]
        omega
      · rw [htype] at hpolls
        have hne : (⟨type, c⟩ : UringOp) ≠ ⟨.pollAdd, c⟩ := by simpa using hadd
        rw [List.count_singleton, if_neg (by simpa using hne)]
        exact hpolls
    · split_ifs at htype with hadd
      · exact htype.2
      · exact hs.exclusive htype
    · have hpos := hs.pos
      dsimp only
      omega
  · have htotal := h.total
    simp only [Backend.ops, Backend.set, List.length_append, List.length_map, List.length_singleton] at htotal ⊢
    push_cast at htotal ⊢
    omega

/-! ### The queue of a call -/

/-- What the attempt to put a context into the queue has done; `mask` is the mask the context has now. -/
structure Requeued (b b' : Backend) (c : ℕ) (x : SocketContext) (mask : Mask) (ok : Bool) : Prop where
  grows : Grows b.rearm b'.rearm
  same : b'.ctxMap = b.ctxMap ∧ b'.nextCtx = b.nextCtx ∧ b'.accepted = b.accepted ∧ b'.rearmed = b.rearmed ∧
    b'.cq = b.cq
  heap : ∃ y, b'.heap = Function.update b.heap c (some y) ∧ y.closing = x.closing ∧ y.registeredMask = mask ∧
    (ok = true → y.rearmQueued = true)
  mem : ok = true → c ∈ b'.rearm.entries
  failed : ok = false → b'.rearm.failed = true

theorem Requeued.keeps {ok : Bool} (h : Requeued b b' c x x.registeredMask ok) (hx : b.heap c = some x) :
    Keeps b b' := by
  obtain ⟨hmap, hnext, haccepted, hrearmed, -⟩ := h.same
  obtain ⟨y, hheap, -, hmask, -⟩ := h.heap
  exact keeps_of_mask ⟨hmap, hnext, haccepted⟩ h.grows.failed (mask_update hx hheap hmask) fun _ _ e he =>
    Or.inl (hrearmed ▸ he)

/-- **A context enters the queue**, whatever its mask becomes. -/
theorem Inv.requeue (h : Inv b (b.rearm.entries ++ rest) held) (hx : b.heap c = some x)
    (harmed : x.pollArmed = false) (hqueued : x.rearmQueued = false) (mask : Mask) (env : Env) :
    ∃ ok b', Uring.requeue env (b.set c { x with registeredMask := mask }) c = some (ok, b') ∧
      Inv b' (b'.rearm.entries ++ rest) held ∧ Requeued b b' c x mask ok := by
  have hs := h.sound hx
  have hcount := hs.refCount_eq
  have hqueue := hs.queue_eq
  have hpos := hs.pos
  rw [hqueued, Bool.toNat_false] at hqueue
  simp only [refs, List.count_append] at hcount hqueue
  obtain ⟨hgrows, hle, hok, hfail⟩ := addToRearmQueue_spec env b.rearm c h.count_le
  have heq : Uring.requeue env (b.set c { x with registeredMask := mask }) c = _ :=
    requeue_eq env (Function.update_self _ _ _)
  rw [heq]
  simp only [Backend.set, Function.update_idem]
  generalize addToRearmQueue env b.rearm c = r at *
  obtain ⟨ok, q⟩ := r
  cases ok with
  | true =>
      have hentries := hok rfl
      dsimp only at hentries
      refine ⟨true, _, rfl, ?_, ⟨hgrows, ⟨rfl, rfl, rfl, rfl, rfl⟩, ⟨_, rfl, rfl, rfl, fun _ => rfl⟩, fun _ => ?_,
        fun hf => absurd hf (by simp)⟩⟩
      · refine h.change hx { x with registeredMask := mask, refCount := x.refCount + 1, rearmQueued := true } rfl
          ⟨rfl, rfl, rfl, rfl⟩ (fun c' hc' => ?_) hgrows.failed ?_ h.total hle
        · simp only [if_true, hentries, refs, List.count_append, List.count_singleton]
          rw [if_neg (by simpa using Ne.symm hc')]
          rfl
        · refine ⟨?_, hs.pendingOps_eq, ?_, hs.polls_eq, fun ha => absurd ha (by simp [harmed]), by dsimp only; omega,
            hs.fd_isSome, hs.mapped, fun _ _ _ _ => Or.inr rfl⟩
          · simp only [if_true, hentries, refs, List.count_append, List.count_singleton_self]
            push_cast at hcount ⊢
            omega
          · simp only [if_true, hentries, refs, List.count_append, List.count_singleton_self, Bool.toNat_true]
            omega
      · simp [hentries]
  | false =>
      obtain ⟨hentries, hfailed⟩ := hfail rfl
      dsimp only at hentries hfailed
      refine ⟨false, _, rfl, ?_, ⟨hgrows, ⟨rfl, rfl, rfl, rfl, rfl⟩, ⟨_, rfl, rfl, rfl, fun hf => absurd hf (by simp)⟩,
        fun hf => absurd hf (by simp), fun _ => hfailed⟩⟩
      refine h.change hx { x with registeredMask := mask } rfl ⟨rfl, rfl, rfl, rfl⟩ (fun c' _ => ?_) hgrows.failed ?_
        h.total hle
      · simp only [Bool.false_eq_true, if_false, hentries]
        rfl
      · simp only [Bool.false_eq_true, if_false, hentries, hfailed]
        exact { hs with registered := fun _ _ hf => absurd hf (by simp) }

/-- **A context leaves the queue**; the reference of the queue is held now. -/
theorem Inv.unqueue (h : Inv b (queue ++ c :: rest) []) :
    ∃ x, b.heap c = some x ∧ x.rearmQueued = true ∧ x.pollArmed = false ∧
      (x.closing = false → mapRefs b.ctxMap c = 1) ∧
      Inv (b.set c { x with rearmQueued := false }) (queue ++ rest) [c] := by
  obtain ⟨x, hx⟩ := h.exists_of_mem_queue (c := c) (by simp)
  have hs := h.sound hx
  have hqueue := hs.queue_eq
  have hcount := hs.refCount_eq
  simp only [refs, List.count_append, List.count_cons_self] at hqueue hcount
  have hqueued : x.rearmQueued = true := by
    cases hq : x.rearmQueued with
    | true => rfl
    | false =>
        rw [hq, Bool.toNat_false] at hqueue
        omega
  rw [hqueued, Bool.toNat_true] at hqueue
  have harmed : x.pollArmed = false := by
    by_contra ha
    have hexclusive := hs.exclusive (by simpa using ha)
    rw [hqueued] at hexclusive
    exact absurd hexclusive (by simp)
  refine ⟨x, hx, hqueued, harmed, hs.mapped rfl, ?_⟩
  refine h.change hx { x with rearmQueued := false } rfl ⟨rfl, rfl, rfl, rfl⟩ (fun c' hc' => ?_) id ?_ h.total
    h.count_le
  · simp [refs, Backend.set, Backend.ops, List.count_cons_of_ne (Ne.symm hc')]
  · refine ⟨?_, hs.pendingOps_eq, ?_, hs.polls_eq, fun _ => rfl, hs.pos, hs.fd_isSome, ?_, ?_⟩
    · simp only [refs, List.count_append, List.count_singleton_self, List.count_nil] at hcount ⊢
      push_cast at hcount ⊢
      omega
    · simp only [refs, List.count_append, Bool.toNat_false]
      omega
    · intro hheld
      simp [refs] at hheld
    · intro hheld
      simp [refs] at hheld

/-- **A completion is consumed**; the reference of the operation is held now. -/
theorem Inv.consume (h : Inv b queue []) {op : UringOp} {res : ℤ} {cqes : List (UringOp × ℤ)}
    (hcq : b.cq = (op, res) :: cqes) :
    ∃ x, b.heap op.ctx = some x ∧ (op.type = .pollAdd → x.pollArmed = true ∧ x.rearmQueued = false) ∧
      (x.closing = false → mapRefs b.ctxMap op.ctx = 1 ∧
        (b.rearm.failed = false → x.registeredMask ≠ 0 → x.pollArmed = true ∨ x.rearmQueued = true)) ∧
      Inv { b with
          heap := Function.update b.heap op.ctx (some { x with
            pollArmed := if op.type = .pollAdd then false else x.pollArmed
            pendingOps := x.pendingOps - 1 })
          cq := cqes
          uringPendingTotal := b.uringPendingTotal - 1 } queue [op.ctx] := by
  have hmem : op ∈ b.ops := by simp [Backend.ops, hcq]
  obtain ⟨x, hx⟩ := h.exists_of_mem_ops hmem
  have hs := h.sound hx
  have hpending := hs.pendingOps_eq
  have hcount := hs.refCount_eq
  have hpolls := hs.polls_eq
  simp only [refs, Backend.ops, hcq, List.map_cons, List.map_append, List.count_append, List.count_cons_self,
    List.count_nil] at hpending hcount hpolls
  have harmed : op.type = .pollAdd → x.pollArmed = true := by
    intro htype
    cases ha : x.pollArmed with
    | true => rfl
    | false =>
        have hself : (⟨.pollAdd, op.ctx⟩ : UringOp) = op := by rw [← htype]
        rw [ha, Bool.toNat_false, hself, List.count_cons_self] at hpolls
        omega
  refine ⟨x, hx, fun htype => ⟨harmed htype, hs.exclusive (harmed htype)⟩,
    fun hclosing => ⟨hs.mapped rfl hclosing, hs.registered rfl hclosing⟩, ?_⟩
  refine h.change hx { x with
    pollArmed := if op.type = .pollAdd then false else x.pollArmed, pendingOps := x.pendingOps - 1 } rfl
    ⟨rfl, rfl, rfl, rfl⟩ (fun c' hc' => ?_) id ?_ ?_ h.count_le
  · have hne : op ≠ ⟨.pollAdd, c'⟩ := by
      rintro rfl
      exact hc' rfl
    simp [refs, Backend.ops, hcq, List.count_cons_of_ne (Ne.symm hc'), List.count_cons_of_ne hne]
  · refine ⟨?_, ?_, hs.queue_eq, ?_, fun ha => ?_, hs.pos, hs.fd_isSome, ?_, ?_⟩
    · simp only [refs, List.count_singleton_self]
      push_cast at hcount ⊢
      omega
    · simp only [refs, Backend.ops, List.map_append, List.count_append]
      push_cast at hpending ⊢
      omega
    · simp only [refs, Backend.ops, List.count_append]
      split_ifs with htype
      · have hself : (⟨.pollAdd, op.ctx⟩ : UringOp) = op := by rw [← htype]
        rw [harmed htype, hself, List.count_cons_self, Bool.toNat_true] at hpolls
        rw [hself, Bool.toNat_false]
        omega
      · have hne : op ≠ ⟨.pollAdd, op.ctx⟩ := fun heq => htype (congrArg UringOp.type heq)
        rw [List.count_cons_of_ne hne] at hpolls
        exact hpolls
    · split_ifs at ha with htype
      exact hs.exclusive ha
    · intro hheld
      simp [refs] at hheld
    · intro hheld
      simp [refs] at hheld
  · have htotal := h.total
    simp only [Backend.ops, hcq, List.map_cons, List.length_append, List.length_cons] at htotal ⊢
    push_cast at htotal ⊢
    omega

end Uring
