import LibCore.UringBackend

/-!
# Who Owns the Contexts

Every context keeps an account of the references to it: those of the map, of the queue of polls to be armed
again, of the operations whose completions are not consumed, and those that a call holds while it works on the
context. While a call holds a reference it need not have registered the context again yet.

## Main definitions

* `Refs`, `refs`: the references to a context.
* `Account`: what a context says about them; a context that is gone has none.
* `Inv`: the accounts of all contexts, with the totals of the backend.

## Main results

* `Inv.change`: a change of one context.
* `Inv.release`: a call gives up the reference it holds.
-/

namespace Uring

/-- The references to a context: of the map, of the queue, of operations, how many of these are polls, and those
that a call holds. -/
@[ext] structure Refs where
  map : ℕ
  queue : ℕ
  ops : ℕ
  polls : ℕ
  held : ℕ

open Classical in
/-- Whether the map leads to `c`, as a number. -/
noncomputable def mapRefs (ctxMap : ℤ → Option ℕ) (c : ℕ) : ℕ := if ∃ fd, ctxMap fd = some c then 1 else 0

noncomputable def refs (ctxMap : ℤ → Option ℕ) (queue : List ℕ) (ops : List UringOp) (held : List ℕ) (c : ℕ) :
    Refs where
  map := mapRefs ctxMap c
  queue := queue.count c
  ops := (ops.map UringOp.ctx).count c
  polls := ops.count ⟨.pollAdd, c⟩
  held := held.count c

/-- What a live context says about the references to it. A poll is in flight just when `poll_armed` is set. When
no call works on it, a context that is not closing is in the map, and unless the queue could not be enlarged, it
waits for an event, or to be armed again. -/
structure Sound (x : SocketContext) (r : Refs) (failed : Bool) : Prop where
  refCount_eq : x.refCount = r.map + x.pendingOps + r.queue + r.held
  pendingOps_eq : x.pendingOps = r.ops
  queue_eq : r.queue = x.rearmQueued.toNat
  polls_eq : r.polls = x.pollArmed.toNat
  exclusive : x.pollArmed = true → x.rearmQueued = false
  pos : 0 < x.refCount
  fd_isSome : x.closing = false → x.fd.isSome = true
  mapped : r.held = 0 → x.closing = false → r.map = 1
  registered : r.held = 0 → x.closing = false → failed = false → x.registeredMask ≠ 0 →
    x.pollArmed = true ∨ x.rearmQueued = true

/-- The account of an address. -/
def Account : Option SocketContext → Refs → Bool → Prop
  | none, r, _ => r.map = 0 ∧ r.queue = 0 ∧ r.ops = 0 ∧ r.held = 0
  | some x, r, failed => Sound x r failed

/-- The state while the queue owns `queue`, and a call holds `held`. -/
structure Inv (b : Backend) (queue held : List ℕ) : Prop where
  account : ∀ c, Account (b.heap c) (refs b.ctxMap queue b.ops held c) b.rearm.failed
  fds : ∀ fd c, b.ctxMap fd = some c → ∃ x, b.heap c = some x ∧ x.fd = some fd
  fresh : ∀ c, b.nextCtx ≤ c → b.heap c = none
  total : b.uringPendingTotal = b.ops.length
  freed : ∀ e ∈ b.freed, e.2.pendingOps = 0 ∧ e.2.rearmQueued = false ∧ e.1 < b.nextCtx ∧ b.heap e.1 = none
  logged : ∀ c < b.nextCtx, b.heap c = none → ∃ x, (c, x) ∈ b.freed
  count_le : b.rearm.count ≤ b.rearm.capacity

variable {env : Env} {b b' : Backend} {queue queue' held held' : List ℕ} {c : ℕ} {x : SocketContext}

theorem mapRefs_eq_zero_iff {ctxMap : ℤ → Option ℕ} : mapRefs ctxMap c = 0 ↔ ∀ fd, ctxMap fd ≠ some c := by
  rw [mapRefs]
  split_ifs with h
  · exact iff_of_false (by simp) (by simpa using h)
  · exact iff_of_true rfl (by simpa using h)

theorem mapRefs_eq_one {ctxMap : ℤ → Option ℕ} {fd : ℤ} (h : ctxMap fd = some c) : mapRefs ctxMap c = 1 :=
  if_pos ⟨fd, h⟩

theorem Inv.sound (h : Inv b queue held) (hx : b.heap c = some x) :
    Sound x (refs b.ctxMap queue b.ops held c) b.rearm.failed := by
  have haccount := h.account c
  rwa [hx] at haccount

theorem Inv.gone (h : Inv b queue held) (hx : b.heap c = none) :
    mapRefs b.ctxMap c = 0 ∧ queue.count c = 0 ∧ (b.ops.map UringOp.ctx).count c = 0 ∧ held.count c = 0 := by
  have haccount := h.account c
  rwa [hx] at haccount

/-- A context that is referred to is live. -/
theorem Inv.exists_of_mem_queue (h : Inv b queue held) (hc : c ∈ queue) : ∃ x, b.heap c = some x := by
  cases hx : b.heap c with
  | some x => exact ⟨x, rfl⟩
  | none => exact absurd hc (List.count_eq_zero.mp (h.gone hx).2.1)

theorem Inv.exists_of_mem_ops (h : Inv b queue held) {op : UringOp} (hop : op ∈ b.ops) :
    ∃ x, b.heap op.ctx = some x := by
  cases hx : b.heap op.ctx with
  | some x => exact ⟨x, rfl⟩
  | none => exact absurd (List.mem_map_of_mem hop) (List.count_eq_zero.mp (h.gone hx).2.2.1)

theorem account_mono {r : Refs} {failed failed' : Bool} {v : Option SocketContext} (h : Account v r failed)
    (hfailed : failed' = false → failed = false) : Account v r failed' := by
  cases v with
  | none => exact h
  | some x =>
      have h : Sound x r failed := h
      exact { h with registered := fun hheld hclosing hok => h.registered hheld hclosing (hfailed hok) }

/-- **One context changes**, and with it the references to it. -/
theorem Inv.change (h : Inv b queue held) (hx : b.heap c = some x) (x' : SocketContext) (hfd : x'.fd = x.fd)
    (hb : b'.heap = Function.update b.heap c (some x') ∧ b'.ctxMap = b.ctxMap ∧ b'.nextCtx = b.nextCtx ∧
      b'.freed = b.freed)
    (hothers : ∀ c' ≠ c, refs b.ctxMap queue' b'.ops held' c' = refs b.ctxMap queue b.ops held c')
    (hfailed : b'.rearm.failed = false → b.rearm.failed = false)
    (hsound : Sound x' (refs b.ctxMap queue' b'.ops held' c) b'.rearm.failed)
    (htotal : b'.uringPendingTotal = b'.ops.length) (hcount : b'.rearm.count ≤ b'.rearm.capacity) :
    Inv b' queue' held' := by
  obtain ⟨hheap, hmap, hnext, hfreed⟩ := hb
  refine ⟨fun c' => ?_, fun fd c' hc' => ?_, fun c' hc' => ?_, htotal, fun e he => ?_, fun c' hc' hnone => ?_, hcount⟩
  · rw [hheap, hmap]
    by_cases hc' : c' = c
    · rw [hc', Function.update_self]
      exact hsound
    · rw [Function.update_of_ne hc', hothers c' hc']
      exact account_mono (h.account c') hfailed
  · rw [hmap] at hc'
    obtain ⟨y, hy, hyfd⟩ := h.fds fd c' hc'
    rw [hheap]
    by_cases hcc : c' = c
    · rw [hcc, hx, Option.some.injEq] at hy
      rw [hcc, Function.update_self]
      exact ⟨x', rfl, by rw [hfd, hy, hyfd]⟩
    · rw [Function.update_of_ne hcc]
      exact ⟨y, hy, hyfd⟩
  · rw [hnext] at hc'
    have hne : c' ≠ c := by
      rintro rfl
      rw [h.fresh c' hc'] at hx
      exact absurd hx (by simp)
    rw [hheap, Function.update_of_ne hne]
    exact h.fresh c' hc'
  · rw [hfreed] at he
    obtain ⟨hpending, hqueued, hlt, hnone⟩ := h.freed e he
    have hne : e.1 ≠ c := by
      intro heq
      rw [heq, hx] at hnone
      exact absurd hnone (by simp)
    rw [hheap, hnext, Function.update_of_ne hne]
    exact ⟨hpending, hqueued, hlt, hnone⟩
  · rw [hheap] at hnone
    have hne : c' ≠ c := by
      rintro rfl
      rw [Function.update_self] at hnone
      exact absurd hnone (by simp)
    rw [Function.update_of_ne hne] at hnone
    rw [hfreed]
    exact h.logged c' (hnext ▸ hc') hnone

/-- **The reference a call holds is given up.** With the last reference the context goes; nothing else refers to
it then. -/
theorem Inv.release (h : Inv b queue [c]) (hx : b.heap c = some x)
    (hreg : x.closing = false → mapRefs b.ctxMap c = 1 ∧
      (b.rearm.failed = false → x.registeredMask ≠ 0 → x.pollArmed = true ∨ x.rearmQueued = true)) :
    ∃ b', Uring.release b c = some b' ∧ Inv b' queue [] ∧
      (b' = { b with heap := Function.update b.heap c none, freed := b.freed ++ [(c, x)] } ∨
        b' = b.set c { x with refCount := x.refCount - 1 }) := by
  have hs := h.sound hx
  have hcount := hs.refCount_eq
  have hpending := hs.pendingOps_eq
  simp only [refs, List.count_singleton_self] at hcount hpending
  have hothers : ∀ c' ≠ c, refs b.ctxMap queue b.ops [] c' = refs b.ctxMap queue b.ops [c] c' := by
    intro c' hc'
    simp [refs, Ne.symm hc']
  rw [Uring.release, hx]
  by_cases hone : x.refCount = 1
  · refine ⟨_, if_pos hone, ⟨fun c' => ?_, fun fd c' hc' => ?_, fun c' hc' => ?_, h.total, fun e he => ?_,
      fun c' hc' hnone => ?_, h.count_le⟩, Or.inl rfl⟩
    · by_cases hc' : c' = c
      · subst hc'
        show Account (Function.update b.heap c' none c') _ _
        rw [Function.update_self]
        exact ⟨by show mapRefs b.ctxMap c' = 0; omega, by show queue.count c' = 0; omega,
          by show (b.ops.map UringOp.ctx).count c' = 0; omega, rfl⟩
      · show Account (Function.update b.heap c none c') (refs b.ctxMap queue b.ops [] c') b.rearm.failed
        rw [Function.update_of_ne hc', hothers c' hc']
        exact h.account c'
    · have hne : c' ≠ c := by
        rintro rfl
        have hmap := mapRefs_eq_one hc'
        dsimp only at hmap
        omega
      show ∃ y, Function.update b.heap c none c' = some y ∧ y.fd = some fd
      rw [Function.update_of_ne hne]
      exact h.fds fd c' hc'
    · have hne : c' ≠ c := by
        rintro rfl
        rw [h.fresh c' hc'] at hx
        exact absurd hx (by simp)
      show Function.update b.heap c none c' = none
      rw [Function.update_of_ne hne]
      exact h.fresh c' hc'
    · show _ ∧ _ ∧ _ ∧ Function.update b.heap c none e.1 = none
      rcases List.mem_append.mp he with he | he
      · obtain ⟨hp, hq, hlt, hnone⟩ := h.freed e he
        refine ⟨hp, hq, hlt, ?_⟩
        by_cases hec : e.1 = c
        · rw [hec, Function.update_self]
        · rw [Function.update_of_ne hec, hnone]
      · obtain rfl := List.mem_singleton.mp he
        have hqueue := hs.queue_eq
        simp only [refs] at hqueue
        refine ⟨by dsimp only; omega, ?_, ?_, Function.update_self _ _ _⟩
        · dsimp only
          cases hq : x.rearmQueued with
          | false => rfl
          | true =>
              rw [hq, Bool.toNat_true] at hqueue
              omega
        · by_contra hlt
          rw [h.fresh c (not_lt.mp hlt)] at hx
          exact absurd hx (by simp)
    · by_cases hcc : c' = c
      · exact ⟨x, by simp [hcc]⟩
      · have hnone : Function.update b.heap c none c' = none := hnone
        rw [Function.update_of_ne hcc] at hnone
        obtain ⟨y, hy⟩ := h.logged c' hc' hnone
        exact ⟨y, List.mem_append_left _ hy⟩
  · refine ⟨_, if_neg hone, h.change hx { x with refCount := x.refCount - 1 } rfl ⟨rfl, rfl, rfl, rfl⟩ hothers id ?_
      h.total h.count_le, Or.inr rfl⟩
    have hpos := hs.pos
    exact { hs with
      refCount_eq := by
        simp only [refs, List.count_nil]
        omega
      pos := by
        dsimp only
        omega
      mapped := fun _ hclosing => (hreg hclosing).1
      registered := fun _ hclosing => (hreg hclosing).2 }

end Uring
