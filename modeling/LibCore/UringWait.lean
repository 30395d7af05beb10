import LibCore.UringSteps

/-!
# `event_backend_wait`

The two loops of a wait. The loop over the queue arms the polls again that it finds there and may put them back;
the loop over the completions consumes them, puts the contexts of polls into the queue, and makes the events.

## Main definitions

* `Referenced`: what holds of the contexts of the events.

## Main results

* `Inv.rearmLoop`, `Inv.consumeLoop`, `Inv.wait`: the loops, and the wait.
-/

namespace Uring

variable {env : Env} {b b' : Backend} {queue rest : List ℕ} {c : ℕ} {x : SocketContext} {fatal fatal' : ℤ}

/-- Giving up the reference that is held leaves the masks, the queue and the completions alone. -/
theorem Inv.release_keeps (h : Inv b queue [c]) (hx : b.heap c = some x)
    (hreg : x.closing = false → mapRefs b.ctxMap c = 1 ∧
      (b.rearm.failed = false → x.registeredMask ≠ 0 → x.pollArmed = true ∨ x.rearmQueued = true)) :
    ∃ b', Uring.release b c = some b' ∧ Inv b' queue [] ∧ Keeps b b' ∧ b'.rearm = b.rearm ∧ b'.cq = b.cq := by
  obtain ⟨b', hrelease, hinv, rfl | rfl⟩ := h.release hx hreg
  · refine ⟨_, hrelease, hinv, keeps_of_mask ⟨rfl, rfl, rfl⟩ id (fun v y' hy' => ?_) fun _ _ _ he => Or.inl he,
      rfl, rfl⟩
    have hy' : Function.update b.heap c none v = some y' := hy'
    by_cases hv : v = c
    · rw [hv, Function.update_self] at hy'
      exact absurd hy' (by simp)
    · rw [Function.update_of_ne hv] at hy'
      exact ⟨y', hy', rfl⟩
  · exact ⟨_, hrelease, hinv, keeps_set hx _ rfl, rfl, rfl⟩

/-! ### The loop over the queue -/

/-- The inner part of a round, with the context out of the queue. -/
theorem Inv.rearmPoll (h : Inv b (b.rearm.entries ++ rest) [c])
    (hx : b.heap c = some { x with rearmQueued := false }) (harmed : x.pollArmed = false) (env : Env) (fatal : ℤ) :
    ∃ b' fatal' y, Uring.rearmPoll env b fatal c x = some (b', fatal') ∧
      Inv b' (b'.rearm.entries ++ rest) [c] ∧ Keeps b b' ∧ Grows b.rearm b'.rearm ∧ b'.heap c = some y ∧
      y.closing = x.closing ∧ (x.closing = false → b'.rearm.failed = false → y.registeredMask ≠ 0 →
        y.pollArmed = true ∨ y.rearmQueued = true) := by
  rw [Uring.rearmPoll]
  split_ifs with hwanted
  · obtain ⟨ok, n, hsqe⟩ := exists_getSqeRetry env b
    rw [hsqe]
    have hs := (h.sqes n).sound hx
    cases ok with
    | true =>
        obtain ⟨fd, hfd⟩ := Option.isSome_iff_exists.mp (hs.fd_isSome hwanted.1)
        have hfd : x.fd = some fd := hfd
        simp only [if_true, hfd, Option.bind_eq_bind, Option.bind_some,
          submitOp_eq (b := { b with sqes := n }) hx, Backend.set, Function.update_self, Function.update_idem]
        refine ⟨_, _, _, rfl, (h.sqes n).submit hx .pollAdd x.registeredMask _ ⟨harmed, rfl⟩, ?_, .refl _,
          Function.update_self _ _ _, rfl, fun _ _ _ => Or.inl rfl⟩
        refine keeps_of_mask ⟨rfl, rfl, rfl⟩ id (mask_update hx rfl rfl) fun hmasks hok e he => ?_
        rcases List.mem_append.mp he with he | he
        · exact Or.inl he
        · obtain rfl := List.mem_singleton.mp he
          exact Or.inr (by rw [← hmasks.mask hok c _ hx])
    | false =>
        obtain ⟨ok, b', hrequeue, hinv, hr⟩ := (h.sqes n).requeue hx harmed rfl x.registeredMask env
        have hself : ({ b with sqes := n }.set c { x with rearmQueued := false } : Backend) = { b with sqes := n } :=
          set_self hx
        have hrequeue : Uring.requeue env { b with sqes := n } c = some (ok, b') := by
          rw [← hself]
          exact hrequeue
        obtain ⟨y, hheap, hclosing, hmask, hqueued⟩ := hr.heap
        simp only [Bool.false_eq_true, if_false, hrequeue, Option.bind_eq_bind, Option.bind_some]
        have hkeeps : Keeps b b' := (keeps_sqes b n).trans (Requeued.keeps hr hx)
        have hy : b'.heap c = some y := by rw [hheap, Function.update_self]
        cases ok with
        | true => exact ⟨b', fatal, y, rfl, hinv, hkeeps, hr.grows, hy, hclosing, fun _ _ _ => Or.inr (hqueued rfl)⟩
        | false =>
            exact ⟨b', raise fatal ENOMEM, y, rfl, hinv, hkeeps, hr.grows, hy, hclosing,
              fun _ hok => absurd (hr.failed rfl) (by simp [hok])⟩
  · refine ⟨b, fatal, _, rfl, h, .refl b, .refl _, hx, rfl, fun hclosing _ hmask => ?_⟩
    exact absurd ⟨hclosing, hmask⟩ hwanted

/-- **One round** of the loop over the queue. -/
theorem Inv.rearmEntry (h : Inv b (b.rearm.entries ++ c :: rest) []) (env : Env) (fatal : ℤ) :
    ∃ b' fatal', Uring.rearmEntry env b fatal c = some (b', fatal') ∧ Inv b' (b'.rearm.entries ++ rest) [] ∧
      Keeps b b' ∧ Grows b.rearm b'.rearm := by
  obtain ⟨x, hx, -, harmed, hmapped, hheld⟩ := h.unqueue
  obtain ⟨b₁, fatal', y, hpoll, hinv, hkeeps, hgrows, hy, hclosing, hreg⟩ :=
    Inv.rearmPoll (x := x) hheld (Function.update_self _ _ _) harmed env fatal
  obtain ⟨b₂, hrelease, hinv₂, hkeeps₂, hrearm, -⟩ := hinv.release_keeps hy fun hc => by
    rw [hclosing] at hc
    refine ⟨?_, hreg hc⟩
    rw [hkeeps.ctxMap]
    exact hmapped hc
  refine ⟨b₂, fatal', ?_, by rw [hrearm]; exact hinv₂,
    ((keeps_set hx { x with rearmQueued := false } rfl).trans hkeeps).trans hkeeps₂, ?_⟩
  · simp only [Uring.rearmEntry, hx, Option.bind_eq_bind, Option.bind_some, hpoll, hrelease]
  · rw [hrearm]
    exact hgrows

/-- **The loop over the queue**: the slots behind the index are those of the queue before the loop. -/
theorem Inv.rearmLoop {n i : ℕ} (h : Inv b (b.rearm.entries ++ (List.range' i n).map b.rearm.pending) [])
    (hi : b.rearm.count ≤ i) (env : Env) (fatal : ℤ) :
    ∃ b' fatal', Uring.rearmLoop env n i b fatal = some (b', fatal') ∧ Inv b' b'.rearm.entries [] ∧ Keeps b b' := by
  induction n generalizing i b fatal with
  | zero => exact ⟨b, fatal, rfl, by simpa using h, .refl b⟩
  | succ n ih =>
      rw [List.range'_succ, List.map_cons] at h
      obtain ⟨b₁, fatal₁, hentry, hinv, hkeeps, hgrows⟩ := h.rearmEntry env fatal
      have hsame : (List.range' (i + 1) n).map b₁.rearm.pending = (List.range' (i + 1) n).map b.rearm.pending := by
        refine List.map_congr_left fun j hj => hgrows.pending j ?_
        have hle := (List.mem_range'_1.mp hj).1
        omega
      obtain ⟨b₂, fatal₂, hloop, hinv₂, hkeeps₂⟩ := ih (by rwa [hsame]) (hgrows.count_le.trans (by omega)) fatal₁
      refine ⟨b₂, fatal₂, ?_, hinv₂, hkeeps.trans hkeeps₂⟩
      simp only [Uring.rearmLoop, hentry, Option.bind_eq_bind, Option.bind_some, hloop]

/-- The queue is emptied first, and then filled again. -/
theorem Inv.drain (h : Inv b b.rearm.entries []) (env : Env) :
    ∃ b' fatal', Uring.rearmLoop env b.rearm.count 0 { b with rearm := { b.rearm with count := 0 } } 0 =
      some (b', fatal') ∧ Inv b' b'.rearm.entries [] ∧ Keeps b b' := by
  have hstart : Inv { b with rearm := { b.rearm with count := 0 } }
      ([] ++ (List.range' 0 b.rearm.count).map b.rearm.pending) [] := by
    rw [List.nil_append, ← List.range_eq_range']
    exact ⟨h.account, h.fds, h.fresh, h.total, h.freed, h.logged, Nat.zero_le _⟩
  obtain ⟨b', fatal', hloop, hinv, hkeeps⟩ := Inv.rearmLoop (b := { b with rearm := { b.rearm with count := 0 } })
    hstart le_rfl env 0
  refine ⟨b', fatal', hloop, hinv, Keeps.trans ?_ hkeeps⟩
  exact keeps_of_mask ⟨rfl, rfl, rfl⟩ id (fun _ x' hx' => ⟨x', hx', rfl⟩) fun _ _ _ he => Or.inl he

/-! ### Completions -/

theorem ops_complete (b : Backend) (k : ℕ) (res : ℤ) : (complete b k res).ops.Perm b.ops := by
  rw [complete]
  cases hk : b.inFlight[k]? with
  | none => exact List.Perm.refl _
  | some op =>
      obtain ⟨hlt, rfl⟩ := List.getElem?_eq_some_iff.mp hk
      simp only [Backend.ops, List.map_append, List.map_cons, List.map_nil]
      rw [← List.append_assoc]
      refine List.perm_append_comm.trans ?_
      rw [← List.append_assoc]
      exact (List.getElem_cons_eraseIdx_perm hlt).append_right _

theorem complete_same (b : Backend) (k : ℕ) (res : ℤ) :
    ∃ inFlight cq, complete b k res = { b with inFlight := inFlight, cq := cq } := by
  rw [complete]
  cases b.inFlight[k]? with
  | none => exact ⟨b.inFlight, b.cq, rfl⟩
  | some op => exact ⟨_, _, rfl⟩

/-- **A completion is posted.** -/
theorem Inv.complete (h : Inv b queue []) (k : ℕ) (res : ℤ) :
    Inv (complete b k res) queue [] ∧ Keeps b (complete b k res) ∧ (complete b k res).rearm = b.rearm := by
  have hperm := ops_complete b k res
  obtain ⟨inFlight, cq, heq⟩ := complete_same b k res
  rw [heq] at hperm ⊢
  refine ⟨⟨fun c => ?_, h.fds, h.fresh, ?_, h.freed, h.logged, h.count_le⟩,
    keeps_of_mask ⟨rfl, rfl, rfl⟩ id (fun _ x' hx' => ⟨x', hx', rfl⟩) fun _ _ _ he => Or.inl he, rfl⟩
  · have hrefs : refs b.ctxMap queue ({ b with inFlight := inFlight, cq := cq } : Backend).ops [] c =
        refs b.ctxMap queue b.ops [] c := by
      rw [refs, refs, hperm.count_eq, (hperm.map _).count_eq]
    show Account (b.heap c) (refs b.ctxMap queue ({ b with inFlight := inFlight, cq := cq } : Backend).ops [] c) _
    rw [hrefs]
    exact h.account c
  · rw [hperm.length_eq]
    exact h.total

theorem Inv.posted (h : Inv b queue []) (posted : List (ℕ × ℤ)) :
    Inv (posted.foldl (fun b p => Uring.complete b p.1 p.2) b) queue [] ∧
      Keeps b (posted.foldl (fun b p => Uring.complete b p.1 p.2) b) ∧
      (posted.foldl (fun b p => Uring.complete b p.1 p.2) b).rearm = b.rearm := by
  induction posted generalizing b with
  | nil => exact ⟨h, .refl b, rfl⟩
  | cons p posted ih =>
      obtain ⟨hinv, hkeeps, hrearm⟩ := h.complete p.1 p.2
      obtain ⟨hinv', hkeeps', hrearm'⟩ := ih hinv
      exact ⟨hinv', hkeeps.trans hkeeps', hrearm'.trans hrearm⟩

/-- The context of an event is in the map, and in the queue if it still waits for events; the latter need not be
when the wait fails. -/
def Referenced (b : Backend) (fatal : ℤ) (v : ℕ) : Prop :=
  mapRefs b.ctxMap v = 1 ∧
    (fatal = 0 → ∀ x, b.heap v = some x → x.registeredMask ≠ 0 → v ∈ b.rearm.entries)

theorem Referenced.mono {v : ℕ} (h : Referenced b fatal v) (hkeeps : Keeps b b')
    (hentries : b.rearm.entries <+: b'.rearm.entries) (hfatal : fatal' = 0 → fatal = 0) : Referenced b' fatal' v := by
  refine ⟨by rw [hkeeps.ctxMap]; exact h.1, fun h0 x' hx' hmask => ?_⟩
  obtain ⟨x, hx, heq⟩ := hkeeps.mask v x' hx'
  exact hentries.subset (h.2 (hfatal h0) x hx (by rwa [← heq]))

theorem raise_eq_zero {errno : ℤ} (herrno : errno ≠ 0) : raise fatal errno ≠ 0 := by
  rw [raise]
  split_ifs with h
  · exact herrno
  · exact h

/-- What a round of the loop over the completions leaves. -/
structure Consumed (b b' : Backend) (cqes : List (UringOp × ℤ)) : Prop where
  inv : Inv b' b'.rearm.entries []
  keeps : Keeps b b'
  entries : b.rearm.entries <+: b'.rearm.entries
  cq : b'.cq = cqes

/-- The completion of an update or a removal. -/
theorem Inv.consumeOther (h : Inv b b.rearm.entries []) {op : UringOp} {res : ℤ} {cqes : List (UringOp × ℤ)}
    (hcq : b.cq = (op, res) :: cqes) (htype : op.type ≠ .pollAdd) :
    ∃ b', Uring.consumeOther { b with cq := cqes, uringPendingTotal := b.uringPendingTotal - 1 } op.ctx = some b' ∧
      Consumed b b' cqes := by
  obtain ⟨x, hx, -, hreg, hinv⟩ := h.consume hcq
  rw [if_neg htype] at hinv
  obtain ⟨b', hrelease, hinv', hkeeps, hrearm, hcq'⟩ := hinv.release_keeps (Function.update_self _ _ _) hreg
  refine ⟨b', ?_, ⟨by rw [hrearm]; exact hinv', Keeps.trans ?_ hkeeps, by rw [hrearm], hcq'⟩⟩
  · simp only [Uring.consumeOther, hx, Option.bind_eq_bind, Option.bind_some]
    exact hrelease
  · exact keeps_of_mask ⟨rfl, rfl, rfl⟩ id (mask_update hx rfl rfl) fun _ _ _ he => Or.inl he

/-- A context whose poll is done enters the queue if it still waits for events. -/
theorem Inv.requeueWanted (h : Inv b b.rearm.entries [c]) (hx : b.heap c = some x) (harmed : x.pollArmed = false)
    (hqueued : x.rearmQueued = false) (x₀ : SocketContext) (hsame : x₀.closing = x.closing ∧
      x₀.registeredMask = x.registeredMask ∧ x₀.rearmQueued = x.rearmQueued) (env : Env) :
    ∃ ok b' y, Uring.requeueWanted env b c x₀ = some (ok, b') ∧
      Inv b' b'.rearm.entries [c] ∧ Keeps b b' ∧ b.rearm.entries <+: b'.rearm.entries ∧ b'.cq = b.cq ∧
      b'.heap c = some y ∧ y.closing = x.closing ∧ y.registeredMask = x.registeredMask ∧
      (x.closing = false → x.registeredMask ≠ 0 →
        (b'.rearm.failed = false → y.rearmQueued = true) ∧ (ok = true → c ∈ b'.rearm.entries)) := by
  rw [Uring.requeueWanted, hsame.1, hsame.2.1, hsame.2.2]
  split_ifs with hwanted
  · rw [← List.append_nil b.rearm.entries] at h
    obtain ⟨ok, b', hrequeue, hinv, hr⟩ := h.requeue hx harmed hqueued x.registeredMask env
    have hself : b.set c { x with registeredMask := x.registeredMask } = b := set_self hx
    rw [hself] at hrequeue
    rw [List.append_nil] at hinv
    obtain ⟨y, hheap, hclosing, hmask, hyqueued⟩ := hr.heap
    refine ⟨ok, b', y, hrequeue, hinv, Requeued.keeps hr hx, hr.grows.entries, hr.same.2.2.2.2,
      by rw [hheap, Function.update_self], hclosing, hmask, fun _ _ => ⟨fun hok => hyqueued ?_, hr.mem⟩⟩
    by_contra hfail
    exact absurd (hr.failed (by simpa using hfail)) (by simp [hok])
  · exact ⟨true, b, x, rfl, h, .refl b, List.prefix_rfl, rfl, hx, rfl, rfl,
      fun hclosing hmask => absurd ⟨hclosing, hmask, hqueued⟩ hwanted⟩

/-- **The completion of a poll**: an event has a context that is in the map, and in the queue again. -/
theorem Inv.consumePoll (h : Inv b b.rearm.entries []) {op : UringOp} {res : ℤ} {cqes : List (UringOp × ℤ)}
    (hcq : b.cq = (op, res) :: cqes) (htype : op.type = .pollAdd) (env : Env) (fatal : ℤ) :
    ∃ b' event fatal', Uring.consumePoll env
        { b with cq := cqes, uringPendingTotal := b.uringPendingTotal - 1 } fatal op.ctx res =
          some (b', event, fatal') ∧
      Consumed b b' cqes ∧ (fatal' = 0 → fatal = 0) ∧
      ∀ e ∈ event.toList, ∀ v, e.source = .socket v → Referenced b' fatal' v := by
  obtain ⟨x, hx, harmed, hreg, hinv⟩ := h.consume hcq
  rw [if_pos htype] at hinv
  obtain ⟨-, hqueued⟩ := harmed htype
  obtain ⟨ok, b₂, y, hwanted, hinv₂, hkeeps₂, hentries, hcq₂, hy, hclosing, hmask, hqueue⟩ :=
    hinv.requeueWanted (Function.update_self _ _ _) rfl hqueued x ⟨rfl, rfl, rfl⟩ env
  obtain ⟨b₃, hrelease, hinv₃, hkeeps₃, hrearm₃, hcq₃⟩ := hinv₂.release_keeps hy fun hc => by
    rw [hclosing] at hc
    refine ⟨by rw [hkeeps₂.ctxMap]; exact (hreg hc).1, fun hok hne => Or.inr ?_⟩
    rw [hmask] at hne
    exact (hqueue hc hne).1 hok
  have hkeeps : Keeps b b₃ := by
    refine (Keeps.trans ?_ hkeeps₂).trans hkeeps₃
    exact keeps_of_mask ⟨rfl, rfl, rfl⟩ id (mask_update hx rfl rfl) fun _ _ _ he => Or.inl he
  refine ⟨b₃, if res ≠ -ECANCELED ∧ x.closing = false then
      some ⟨if x.isTimer = true then .timer x.timer else .socket op.ctx, eventMask res⟩ else none,
    if ok = true then fatal else raise fatal ENOMEM, ?_,
    ⟨by rw [hrearm₃]; exact hinv₃, hkeeps, by rw [hrearm₃]; exact hentries, hcq₃.trans hcq₂⟩, ?_, ?_⟩
  · simp only [Uring.consumePoll, hx, Option.bind_eq_bind, Option.bind_some, Backend.set]
    rw [hwanted]
    simp only [Option.bind_some, hrelease]
  · intro hfatal
    split_ifs at hfatal with hok
    · exact hfatal
    · exact absurd hfatal (raise_eq_zero (by simp [ENOMEM]))
  · intro e he v hv
    by_cases hevent : res ≠ -ECANCELED ∧ x.closing = false
    · rw [if_pos hevent, Option.toList_some] at he
      obtain rfl := List.mem_singleton.mp he
      split_ifs at hv with htimer
      obtain rfl := Source.socket.inj hv
      refine ⟨by rw [hkeeps.ctxMap]; exact (hreg hevent.2).1, fun hfatal x' hx' hne => ?_⟩
      have hok : ok = true := by
        by_contra hok
        rw [if_neg hok] at hfatal
        exact raise_eq_zero (by simp [ENOMEM]) hfatal
      obtain ⟨x₀, hx₀, heq⟩ := hkeeps.mask op.ctx x' hx'
      obtain rfl : x = x₀ := Option.some.inj (hx.symm.trans hx₀)
      rw [hrearm₃]
      exact (hqueue hevent.2 (by rwa [← heq])).2 hok
    · rw [if_neg hevent] at he
      exact absurd he List.not_mem_nil

/-- **The loop over the completions.** -/
theorem Inv.consumeLoop {cqes : List (UringOp × ℤ)} (h : Inv b b.rearm.entries []) (hcq : b.cq = cqes) (env : Env)
    (maxEvents : ℤ) {events : List Event} (hevents : ∀ e ∈ events, ∀ v, e.source = .socket v → Referenced b fatal v) :
    ∃ b' events' fatal', Uring.consumeLoop env maxEvents cqes b events fatal = some (b', events', fatal') ∧
      Inv b' b'.rearm.entries [] ∧ Keeps b b' ∧
      ∀ e ∈ events', ∀ v, e.source = .socket v → Referenced b' fatal' v := by
  induction cqes generalizing b events fatal with
  | nil => exact ⟨b, events, fatal, rfl, h, .refl b, hevents⟩
  | cons cqe cqes ih =>
      obtain ⟨op, res⟩ := cqe
      rw [Uring.consumeLoop]
      split_ifs with hfull htype
      · exact ⟨b, events, fatal, rfl, h, .refl b, hevents⟩
      · obtain ⟨b₁, event, fatal₁, hpoll, hc, hfatal, hevent⟩ := h.consumePoll hcq htype env fatal
        have hall : ∀ e ∈ events ++ event.toList, ∀ v, e.source = .socket v → Referenced b₁ fatal₁ v := by
          intro e he v hv
          rcases List.mem_append.mp he with he | he
          · exact (hevents e he v hv).mono hc.keeps hc.entries hfatal
          · exact hevent e he v hv
        obtain ⟨b₂, events₂, fatal₂, hloop, hinv₂, hkeeps₂, hevents₂⟩ := ih hc.inv hc.cq hall
        refine ⟨b₂, events₂, fatal₂, ?_, hinv₂, hc.keeps.trans hkeeps₂, hevents₂⟩
        simp only [hpoll, Option.bind_eq_bind, Option.bind_some, hloop]
      · obtain ⟨b₁, hother, hc⟩ := h.consumeOther hcq htype
        obtain ⟨b₂, events₂, fatal₂, hloop, hinv₂, hkeeps₂, hevents₂⟩ := ih hc.inv hc.cq fun e he v hv =>
          (hevents e he v hv).mono hc.keeps hc.entries id
        refine ⟨b₂, events₂, fatal₂, ?_, hinv₂, hc.keeps.trans hkeeps₂, hevents₂⟩
        simp only [hother, Option.bind_eq_bind, Option.bind_some, hloop]

/-- **A wait** keeps the accounts. The contexts of the events it returns are in the map, and in the queue if they
still wait for events. -/
theorem Inv.wait (h : Inv b b.rearm.entries []) (env : Env) (w : Wait) :
    ∃ a b', eventBackendWait env b w = some (a, b') ∧ Inv b' b'.rearm.entries [] ∧ Keeps b b' ∧
      ∀ e ∈ a.events, ∀ v, e.source = .socket v → Referenced b' 0 v := by
  rw [eventBackendWait]
  split_ifs with hmax hflush
  · exact ⟨_, b, rfl, h, .refl b, fun e he => absurd he List.not_mem_nil⟩
  · exact ⟨_, b, rfl, h, .refl b, fun e he => absurd he List.not_mem_nil⟩
  · obtain ⟨b₁, fatal₁, hdrain, hinv₁, hkeeps₁⟩ := h.drain env
    obtain ⟨hinv₂, hkeeps₂, hrearm⟩ := hinv₁.posted w.posted
    rw [← hrearm] at hinv₂
    obtain ⟨b₃, events, fatal₃, hloop, hinv₃, hkeeps₃, hevents⟩ :=
      @Inv.consumeLoop _ (waitFatal fatal₁ w.waitRet) _ hinv₂ rfl env w.maxEvents []
        fun e he => absurd he List.not_mem_nil
    simp only [hdrain, Option.bind_eq_bind, Option.bind_some, hloop]
    by_cases hfatal : fatal₃ = 0
    · rw [if_neg (not_not.mpr hfatal)]
      exact ⟨_, b₃, rfl, hinv₃, (hkeeps₁.trans hkeeps₂).trans hkeeps₃, hfatal ▸ hevents⟩
    · rw [if_pos hfatal]
      exact ⟨_, b₃, rfl, hinv₃, (hkeeps₁.trans hkeeps₂).trans hkeeps₃, fun e he => absurd he List.not_mem_nil⟩

end Uring
