import Mathlib.Data.BitVec
import Mathlib.Logic.Function.Basic
import Mathlib.Tactic

/-!
# The `io_uring` Backend of the Event Loop

`event_loop.c` under `LIBCORE_USE_IOURING`. A registration is a `SocketContext` with a count of references; the
map from descriptors to contexts, every operation the kernel has not answered, and the queue of polls to be
armed again own one reference each. A poll is good for one event, so every event puts its context into that
queue, and the next `event_backend_wait` arms the polls it finds there.

A context is the number of its allocation; an access to one that is gone, and reading a socket through NULL, is
`none`. What the kernel and the allocator do comes from outside: `Env` says which calls of `io_uring_get_sqe`
and `realloc` succeed, and a completion may be posted for any operation in flight, at any time. The masks that
callers have asked for, the polls that have been armed again and the contexts that are gone are logged; the
code has no such logs. The counters have no bound here: that they stay within the `int`s of the code is a
condition on runs, which the results about counters ask for.

## Main definitions

* `RearmQueue`: `rearm_pending` with its count and capacity.
* `Backend`, `register`, `eventBackendModify`, `unregister`, `eventBackendWait`: the backend.
* `Call`, `exec`, `run`: any order of calls and completions.
-/

namespace Uring

/-- An event mask. -/
abbrev Mask := BitVec 32

def EVENT_READ : Mask := 1

def EVENT_WRITE : Mask := 2

def EVENT_ERROR : Mask := 4

def EVENT_CLOSE : Mask := 8

def ENOMEM : ℤ := 12

def EAGAIN : ℤ := 11

def EEXIST : ℤ := 17

def ETIME : ℤ := 62

def ECANCELED : ℤ := 125

/-- What `poll` calls readable, writable, an error, a hangup and a descriptor that is not open. -/
def POLLIN : Mask := 1

def POLLOUT : Mask := 4

def POLLERR : Mask := 8

def POLLHUP : Mask := 16

def POLLNVAL : Mask := 32

/-- `poll_mask`. -/
def pollMask (mask : Mask) : Mask :=
  (if mask &&& EVENT_READ ≠ 0 then POLLIN else 0) ||| (if mask &&& EVENT_WRITE ≠ 0 then POLLOUT else 0)

/-- The mask of the event that a result `res` gives. -/
def eventMask (res : ℤ) : Mask :=
  if res < 0 then EVENT_CLOSE ||| EVENT_ERROR
  else
    (if BitVec.ofInt 32 res &&& POLLIN ≠ 0 then EVENT_READ else 0) |||
    (if BitVec.ofInt 32 res &&& POLLOUT ≠ 0 then EVENT_WRITE else 0) |||
    (if BitVec.ofInt 32 res &&& (POLLERR ||| POLLHUP ||| POLLNVAL) ≠ 0 then EVENT_CLOSE ||| EVENT_ERROR else 0)

/-! ### The queue of polls to be armed again -/

/-- `rearm_pending`, `rearm_count` and `rearm_capacity`, with the number of calls of `realloc` and whether one
of them has failed. -/
structure RearmQueue where
  pending : ℕ → ℕ
  count : ℕ
  capacity : ℕ
  reallocs : ℕ
  failed : Bool

/-- The contexts in the queue. -/
def RearmQueue.entries (q : RearmQueue) : List ℕ := (List.range q.count).map q.pending

/-- What the kernel and the allocator answer: whether the `n`-th call of `realloc` succeeds, and whether the
`n`-th call of `io_uring_get_sqe` finds a free entry. -/
structure Env where
  realloc : ℕ → Bool
  getSqe : ℕ → Bool

/-- `new_cap`. -/
def newCap (capacity : ℕ) : ℕ := if capacity = 0 then 64 else capacity * 2

def RearmQueue.push (q : RearmQueue) (c : ℕ) : RearmQueue :=
  { q with pending := Function.update q.pending q.count c, count := q.count + 1 }

/-- `add_to_rearm_queue`. A capacity that is no `int` cannot be allocated. -/
def addToRearmQueue (env : Env) (q : RearmQueue) (c : ℕ) : Bool × RearmQueue :=
  if q.capacity ≤ q.count then
    if newCap q.capacity < 2 ^ 31 ∧ env.realloc q.reallocs = true then
      (true, { q with capacity := newCap q.capacity, reallocs := q.reallocs + 1 }.push c)
    else (false, { q with reallocs := q.reallocs + 1, failed := true })
  else (true, q.push c)

/-! ### Contexts and operations -/

/-- The kinds of operations. -/
inductive OpType
  | pollAdd
  | pollUpdate
  | pollRemove
deriving DecidableEq

/-- An operation of a context. -/
structure UringOp where
  type : OpType
  ctx : ℕ
deriving DecidableEq

/-- A registration. A socket and a timer are their descriptors; `none` is NULL. -/
structure SocketContext where
  sock : Option ℤ
  timer : Option ℤ
  isTimer : Bool
  registeredMask : Mask
  closing : Bool
  pollArmed : Bool
  rearmQueued : Bool
  pendingOps : ℤ
  refCount : ℤ

/-- The descriptor that is polled. -/
def SocketContext.fd (x : SocketContext) : Option ℤ := if x.isTimer = true then x.timer else x.sock

/-- A poll that has been armed again: the mask it was armed with, the mask of the latest call that names the
context, and that of the latest such call that has succeeded. -/
structure Rearm where
  ctx : ℕ
  armed : Mask
  passed : Mask
  accepted : Mask

/-- The backend. `inFlight` are the operations without a completion, `cq` the completions not consumed yet. -/
structure Backend where
  heap : ℕ → Option SocketContext
  /-- The number of contexts that have been allocated. -/
  nextCtx : ℕ
  ctxMap : ℤ → Option ℕ
  rearm : RearmQueue
  uringPendingTotal : ℤ
  inFlight : List UringOp
  cq : List (UringOp × ℤ)
  /-- The number of calls of `io_uring_get_sqe`. -/
  sqes : ℕ
  passed : ℕ → Mask
  accepted : ℕ → Mask
  rearmed : List Rearm
  freed : List (ℕ × SocketContext)

/-- The operations whose completions have not been consumed. -/
def Backend.ops (b : Backend) : List UringOp := b.inFlight ++ b.cq.map Prod.fst

/-- `event_backend_init`. -/
def eventBackendInit : Backend where
  heap _ := none
  nextCtx := 0
  ctxMap _ := none
  rearm := { pending := fun _ => 0, count := 0, capacity := 64, reallocs := 0, failed := false }
  uringPendingTotal := 0
  inFlight := []
  cq := []
  sqes := 0
  passed _ := 0
  accepted _ := 0
  rearmed := []
  freed := []

/-- Another content of a context. -/
def Backend.set (b : Backend) (c : ℕ) (x : SocketContext) : Backend :=
  { b with heap := Function.update b.heap c (some x) }

/-- `RETAIN`. -/
def retain (b : Backend) (c : ℕ) : Option Backend := do
  let x ← b.heap c
  some (b.set c { x with refCount := x.refCount + 1 })

/-- `RELEASE`. -/
def release (b : Backend) (c : ℕ) : Option Backend := do
  let x ← b.heap c
  if x.refCount = 1 then some { b with heap := Function.update b.heap c none, freed := b.freed ++ [(c, x)] }
  else some (b.set c { x with refCount := x.refCount - 1 })

/-- `io_uring_get_sqe`. -/
def getSqe (env : Env) (b : Backend) : Bool × Backend := (env.getSqe b.sqes, { b with sqes := b.sqes + 1 })

/-- `io_uring_get_sqe`, and once more after a submit. -/
def getSqeRetry (env : Env) (b : Backend) : Bool × Backend :=
  if (getSqe env b).1 = true then getSqe env b else getSqe env (getSqe env b).2

/-- An operation is prepared; it owns a reference until its completion is consumed. -/
def submitOp (b : Backend) (type : OpType) (c : ℕ) : Option Backend := do
  let b ← retain b c
  let x ← b.heap c
  some { b.set c { x with pendingOps := x.pendingOps + 1 } with
    uringPendingTotal := b.uringPendingTotal + 1
    inFlight := b.inFlight ++ [⟨type, c⟩] }

/-- `add_to_rearm_queue`, with the reference that the queue owns. -/
def requeue (env : Env) (b : Backend) (c : ℕ) : Option (Bool × Backend) := do
  let r := addToRearmQueue env b.rearm c
  let b := { b with rearm := r.2 }
  if r.1 = true then
    let b ← retain b c
    let x ← b.heap c
    some (true, b.set c { x with rearmQueued := true })
  else some (false, b)

/-! ### The calls -/

/-- Where an event comes from. -/
inductive Source
  | socket (ctx : ℕ)
  | timer (fd : Option ℤ)
deriving DecidableEq

/-- `LibcoreEvent`, without its time. -/
structure Event where
  source : Source
  mask : Mask

/-- What a call returns; `errno` is zero where the call does not set it. -/
structure Answer where
  ret : ℤ
  errno : ℤ
  events : List Event

def Answer.done : Answer := ⟨0, 0, []⟩

def Answer.fail (errno : ℤ) : Answer := ⟨-1, errno, []⟩

/-- The body of `event_backend_add` and `event_backend_add_timer`; `x` is the new context. -/
def register (env : Env) (b : Backend) (fd : ℤ) (x : SocketContext) : Option (Answer × Backend) :=
  if fd < 0 ∨ 65536 ≤ fd then some (.fail 0, b)
  else if (b.ctxMap fd).isSome = true then some (.fail EEXIST, b)
  else do
    let c := b.nextCtx
    let r := getSqe env { b.set c x with nextCtx := c + 1 }
    if r.1 = true then
      let b ← submitOp r.2 .pollAdd c
      some (.done, { b with ctxMap := Function.update b.ctxMap fd (some c) })
    else
      let b ← release r.2 c
      some (.fail EAGAIN, b)

/-- What `event_backend_add` puts into a new context. -/
def newSocket (fd : ℤ) (mask : Mask) : SocketContext where
  sock := some fd
  timer := none
  isTimer := false
  registeredMask := mask
  closing := false
  pollArmed := true
  rearmQueued := false
  pendingOps := 0
  refCount := 1

/-- What `event_backend_add_timer` puts into a new context. -/
def newTimer (fd : ℤ) : SocketContext where
  sock := none
  timer := some fd
  isTimer := true
  registeredMask := EVENT_READ
  closing := false
  pollArmed := true
  rearmQueued := false
  pendingOps := 0
  refCount := 1

/-- `event_backend_add`. -/
def eventBackendAdd (env : Env) (b : Backend) (fd : ℤ) (mask : Mask) : Option (Answer × Backend) :=
  register env b fd (newSocket fd mask)

/-- `event_backend_add_timer`. -/
def eventBackendAddTimer (env : Env) (b : Backend) (fd : ℤ) : Option (Answer × Backend) :=
  register env b fd (newTimer fd)

/-- `event_backend_modify`. -/
def eventBackendModify (env : Env) (b : Backend) (fd : ℤ) (mask : Mask) : Option (Answer × Backend) :=
  if fd < 0 ∨ 65536 ≤ fd then some (.fail 0, b)
  else
    match b.ctxMap fd with
    | none => some (.fail 0, b)
    | some c => do
        let x ← b.heap c
        if x.closing = true then some (.fail 0, b)
        else if x.pollArmed = false then
          let b := b.set c { x with registeredMask := mask }
          if mask ≠ 0 ∧ x.rearmQueued = false then
            let r ← requeue env b c
            if r.1 = true then some (.done, r.2) else some (.fail ENOMEM, r.2)
          else some (.done, b)
        else
          let r := getSqeRetry env b
          if r.1 = true then
            let b ← submitOp r.2 .pollUpdate c
            let x ← b.heap c
            some (.done, b.set c { x with registeredMask := mask })
          else some (.fail EAGAIN, r.2)

/-- The end of `event_backend_remove` and `event_backend_remove_timer`: the map gives up its reference. -/
def close (b : Backend) (fd : ℤ) (c : ℕ) (isTimer : Bool) : Option (Answer × Backend) := do
  let x ← b.heap c
  let x := { x with closing := true, sock := if isTimer = true then x.sock else none }
  let b ← release { b.set c x with ctxMap := Function.update b.ctxMap fd none } c
  some (.done, b)

/-- The body of `event_backend_remove` and `event_backend_remove_timer`; only the former forgets the socket. -/
def unregister (env : Env) (b : Backend) (fd : ℤ) (isTimer : Bool) : Option (Answer × Backend) :=
  if fd < 0 ∨ 65536 ≤ fd then some (.fail 0, b)
  else
    match b.ctxMap fd with
    | none => some (.fail 0, b)
    | some c => do
        let x ← b.heap c
        if x.closing = true then some (.fail 0, b)
        else if x.pollArmed = true then
          let r := getSqeRetry env b
          if r.1 = true then
            let b ← submitOp r.2 .pollRemove c
            close b fd c isTimer
          else some (.fail EAGAIN, r.2)
        else close b fd c isTimer

/-- `event_backend_remove`. -/
def eventBackendRemove (env : Env) (b : Backend) (fd : ℤ) : Option (Answer × Backend) := unregister env b fd false

/-- `event_backend_remove_timer`. -/
def eventBackendRemoveTimer (env : Env) (b : Backend) (fd : ℤ) : Option (Answer × Backend) :=
  unregister env b fd true

/-! ### `event_backend_wait` -/

/-- `fatal_error` keeps the first error. -/
def raise (fatal errno : ℤ) : ℤ := if fatal = 0 then errno else fatal

/-- `fatal_error` after the wait for completions, which returns `waitRet`. -/
def waitFatal (fatal waitRet : ℤ) : ℤ :=
  if waitRet < 0 ∧ waitRet ≠ -ETIME then raise fatal (-waitRet) else fatal

/-- The inner part of the loop over the queue: the poll is armed again, or queued again when there is no free
entry. -/
def rearmPoll (env : Env) (b : Backend) (fatal : ℤ) (c : ℕ) (x : SocketContext) : Option (Backend × ℤ) :=
  if x.closing = false ∧ x.registeredMask ≠ 0 then
    let r := getSqeRetry env b
    if r.1 = true then do
      let _ ← x.fd
      let b ← submitOp r.2 .pollAdd c
      let y ← b.heap c
      some ({ b.set c { y with pollArmed := true } with
        rearmed := b.rearmed ++ [⟨c, pollMask x.registeredMask, b.passed c, b.accepted c⟩] }, fatal)
    else do
      let q ← requeue env r.2 c
      if q.1 = true then some (q.2, fatal) else some (q.2, raise fatal ENOMEM)
  else some (b, fatal)

/-- One round of the loop over the queue. -/
def rearmEntry (env : Env) (b : Backend) (fatal : ℤ) (c : ℕ) : Option (Backend × ℤ) := do
  let x ← b.heap c
  let r ← rearmPoll env (b.set c { x with rearmQueued := false }) fatal c x
  let b ← release r.1 c
  some (b, r.2)

/-- The loop over the queue, from index `i` on, for `n` rounds. The queue is filled again meanwhile. -/
def rearmLoop (env : Env) : ℕ → ℕ → Backend → ℤ → Option (Backend × ℤ)
  | 0, _, b, fatal => some (b, fatal)
  | n + 1, i, b, fatal => do
      let r ← rearmEntry env b fatal (b.rearm.pending i)
      rearmLoop env n (i + 1) r.1 r.2

/-- The kernel posts the completion of the `k`-th operation in flight. -/
def complete (b : Backend) (k : ℕ) (res : ℤ) : Backend :=
  match b.inFlight[k]? with
  | some op => { b with inFlight := b.inFlight.eraseIdx k, cq := b.cq ++ [(op, res)] }
  | none => b

/-- A context whose poll is done enters the queue if it still waits for events. -/
def requeueWanted (env : Env) (b : Backend) (c : ℕ) (x : SocketContext) : Option (Bool × Backend) :=
  if x.closing = false ∧ x.registeredMask ≠ 0 ∧ x.rearmQueued = false then requeue env b c else some (true, b)

/-- The completion of a poll. -/
def consumePoll (env : Env) (b : Backend) (fatal : ℤ) (c : ℕ) (res : ℤ) : Option (Backend × Option Event × ℤ) := do
  let x ← b.heap c
  let event :=
    if res ≠ -ECANCELED ∧ x.closing = false then
      some ⟨if x.isTimer = true then .timer x.timer else .socket c, eventMask res⟩
    else none
  let b := b.set c { x with pollArmed := false, pendingOps := x.pendingOps - 1 }
  let r ← requeueWanted env b c x
  let b ← release r.2 c
  some (b, event, if r.1 = true then fatal else raise fatal ENOMEM)

/-- The completion of an update or a removal. -/
def consumeOther (b : Backend) (c : ℕ) : Option Backend := do
  let x ← b.heap c
  release (b.set c { x with pendingOps := x.pendingOps - 1 }) c

/-- The loop over the completions. -/
def consumeLoop (env : Env) (maxEvents : ℤ) :
    List (UringOp × ℤ) → Backend → List Event → ℤ → Option (Backend × List Event × ℤ)
  | [], b, events, fatal => some (b, events, fatal)
  | (op, res) :: cqes, b, events, fatal =>
      if op.type = .pollAdd ∧ maxEvents ≤ events.length then some (b, events, fatal)
      else
        let b := { b with cq := cqes, uringPendingTotal := b.uringPendingTotal - 1 }
        if op.type = .pollAdd then do
          let r ← consumePoll env b fatal op.ctx res
          consumeLoop env maxEvents cqes r.1 (events ++ r.2.1.toList) r.2.2
        else do
          let b ← consumeOther b op.ctx
          consumeLoop env maxEvents cqes b events fatal

/-- The arguments of a wait, what the kernel returns for its submit and its wait, and the completions that are
posted meanwhile. -/
structure Wait where
  maxEvents : ℤ
  flushRet : ℤ
  waitRet : ℤ
  posted : List (ℕ × ℤ)

/-- `event_backend_wait`. -/
def eventBackendWait (env : Env) (b : Backend) (w : Wait) : Option (Answer × Backend) :=
  if w.maxEvents ≤ 0 then some (.fail 0, b)
  else if w.flushRet < 0 then some (.fail (-w.flushRet), b)
  else do
    let r ← rearmLoop env b.rearm.count 0 { b with rearm := { b.rearm with count := 0 } } 0
    let b := w.posted.foldl (fun b p => complete b p.1 p.2) r.1
    let l ← consumeLoop env w.maxEvents b.cq b [] (waitFatal r.2 w.waitRet)
    if l.2.2 ≠ 0 then some (.fail l.2.2, l.1) else some (⟨l.2.1.length, 0, l.2.1⟩, l.1)

/-! ### Runs -/

/-- The calls, and the completions that are posted between them. -/
inductive Call
  | add (fd : ℤ) (mask : Mask)
  | modify (fd : ℤ) (mask : Mask)
  | remove (fd : ℤ)
  | addTimer (fd : ℤ)
  | removeTimer (fd : ℤ)
  | wait (w : Wait)
  | complete (k : ℕ) (res : ℤ)

/-- The mask that a call asks for is noted for the context at `fd`, as accepted if the call has succeeded. -/
def Backend.note (b : Backend) (fd : ℤ) (mask : Mask) (ret : ℤ) : Backend :=
  match b.ctxMap fd with
  | none => b
  | some c =>
      { b with
        passed := Function.update b.passed c mask
        accepted := if ret = 0 then Function.update b.accepted c mask else b.accepted }

/-- One call or completion. -/
def exec (env : Env) (b : Backend) : Call → Option (Answer × Backend)
  | .add fd mask => do
      let r ← eventBackendAdd env b fd mask
      some (r.1, if r.1.ret = 0 then r.2.note fd mask r.1.ret else r.2)
  | .modify fd mask => do
      let r ← eventBackendModify env b fd mask
      some (r.1, r.2.note fd mask r.1.ret)
  | .remove fd => eventBackendRemove env b fd
  | .addTimer fd => do
      let r ← eventBackendAddTimer env b fd
      some (r.1, if r.1.ret = 0 then r.2.note fd EVENT_READ r.1.ret else r.2)
  | .removeTimer fd => eventBackendRemoveTimer env b fd
  | .wait w => eventBackendWait env b w
  | .complete k res => some (.done, complete b k res)

/-- A sequence of calls and completions. -/
def run (env : Env) : Backend → List Call → Option Backend
  | b, [] => some b
  | b, call :: calls => do
      let r ← exec env b call
      run env r.2 calls

end Uring
