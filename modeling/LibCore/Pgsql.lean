import Mathlib.Data.List.Basic

/-!
# The PostgreSQL Client

The connection and the transactions of `pgsql.c`. `beginTransaction` keeps the lock of the client across
calls, so that a transaction belongs to one thread, and `commit` and `rollback` give it back twice. Every
query has its own handling of a lost connection.

The lock is a recursive mutex with an owner and a depth. A call of a thread that cannot have the lock
waits: here it has no result. What libpq answers is an oracle, which is asked in the order of the calls;
it also says whether the rows of a result fit the memory, where other allocations succeed. A `PGconn` is
the number of the connection in the order of opening. The text of a query, the error texts, the affected
rows and the cache of schemas are left out.

## Main definitions

* `RecursiveMutex`: the lock.
* `Client`: the client, with the connections that were opened and closed.
* `sqlQuery`, `beginTransaction`, `commit`, …: the operations.
* `call`, `run`: one call of a thread, and a sequence of calls.

## Main results

* `call_spec`: what one call does to the lock, the transaction and the connection.
* `transaction_discipline`: what holds in every run.
-/

/-! ### The lock -/

/-- A recursive mutex: free, or held by a thread, with the number of locks below the last one. -/
inductive RecursiveMutex (T : Type) where
  | free
  | held (owner : T) (below : ℕ)
deriving DecidableEq

namespace RecursiveMutex

variable {T : Type} [DecidableEq T]

/-- `pthread_mutex_lock`: `none` while another thread is the owner. -/
def lock (t : T) : RecursiveMutex T → Option (RecursiveMutex T)
  | .free => some (.held t 0)
  | .held owner below => if owner = t then some (.held t (below + 1)) else none

/-- `pthread_mutex_unlock`: it fails for a thread that is not the owner. -/
def unlock (t : T) : RecursiveMutex T → RecursiveMutex T
  | .free => .free
  | .held owner 0 => if owner = t then .free else .held owner 0
  | .held owner (below + 1) => if owner = t then .held owner below else .held owner (below + 1)

/-- How many locks a thread holds. -/
def depth (t : T) : RecursiveMutex T → ℕ
  | .free => 0
  | .held owner below => if owner = t then below + 1 else 0

/-- Unlocking undoes locking. -/
theorem unlock_lock {t : T} {m m' : RecursiveMutex T} (h : m.lock t = some m') : m'.unlock t = m := by
  cases m with
  | free =>
      obtain rfl := Option.some.inj h
      simp [unlock]
  | held owner below =>
      rw [lock] at h
      split at h
      · rename_i howner
        obtain rfl := Option.some.inj h
        simp [unlock, howner]
      · cases h

/-- The lock can be had when no other thread is the owner. -/
theorem lock_isSome {t : T} {m : RecursiveMutex T} (h : m = .free ∨ ∃ below, m = .held t below) :
    (m.lock t).isSome = true := by
  rcases h with rfl | ⟨below, rfl⟩ <;> simp [lock]

/-- The holder of a lock that can be had is the thread itself. -/
theorem owner_of_lock {t owner : T} {below : ℕ} {m' : RecursiveMutex T}
    (h : (held owner below).lock t = some m') : owner = t := by
  rw [lock] at h
  split at h
  · assumption
  · cases h

end RecursiveMutex

namespace Pgsql

/-! ### The client -/

/-- What `PQexec` and `PQresultStatus` tell about a query; `null` is a missing result. -/
inductive ExecStatus where
  | null
  | commandOk
  | tuplesOk
  | failed
deriving DecidableEq

/-- What `PQconnectdbParams` and `PQstatus` tell about a new connection. -/
inductive ConnectStatus where
  | null
  | ok
  | bad
deriving DecidableEq

/-- The answers of libpq, by the number of questions asked before. -/
structure Oracle where
  exec : ℕ → ExecStatus
  /-- `PQstatus` is `CONNECTION_BAD` behind a query that failed. -/
  connectionBad : ℕ → Bool
  connect : ℕ → ConnectStatus
  /-- The memory for the rows of a result is there. -/
  copied : ℕ → Bool

/-- A client. -/
structure Client (T : Type) where
  conn : Option ℕ
  isConnected : Bool
  inTransaction : Bool
  saveLog : Bool
  lock : RecursiveMutex T
  /-- The connections `PQfinish` has closed. -/
  finished : List ℕ
  /-- How many connections were opened. -/
  opened : ℕ
  /-- How many questions the oracle has answered. -/
  asked : ℕ

variable {T : Type}

/-- A client that has not been connected. -/
def Client.new (T : Type) (saveLog : Bool) : Client T where
  conn := none
  isConnected := false
  inTransaction := false
  saveLog := saveLog
  lock := .free
  finished := []
  opened := 0
  asked := 0

variable [DecidableEq T]

/-- `pthread_mutex_lock` on the lock of the client. -/
def mutexLock (t : T) (c : Client T) : Option (Client T) :=
  (c.lock.lock t).map fun lock => { c with lock := lock }

/-- `pthread_mutex_unlock`. -/
def mutexUnlock (t : T) (c : Client T) : Client T := { c with lock := c.lock.unlock t }

/-- `DB_writeLog_core`, as far as the lock goes. -/
def writeLog (t : T) (isError : Bool) (c : Client T) : Option (Client T) :=
  if !isError && !c.saveLog then some c
  else (mutexLock t c).map (mutexUnlock t)

/-- `PQexec`. -/
def pqExec (o : Oracle) (c : Client T) : ExecStatus × Client T :=
  (o.exec c.asked, { c with asked := c.asked + 1 })

/-- `PQstatus(conn) == CONNECTION_BAD`. -/
def pqConnectionBad (o : Oracle) (c : Client T) : Bool × Client T :=
  (o.connectionBad c.asked, { c with asked := c.asked + 1 })

/-- The loop that copies the rows of a result. -/
def copyRows (o : Oracle) (c : Client T) : Bool × Client T :=
  (o.copied c.asked, { c with asked := c.asked + 1 })

/-- The connection is closed and forgotten, with the flags that go with it. -/
def closeConnection (c : Client T) : Client T :=
  { c with
    conn := none
    isConnected := false
    inTransaction := false
    finished := c.conn.elim c.finished (· :: c.finished) }

/-- `DB_open_connection_pg` and the look at its result. -/
def openConnection (o : Oracle) (c : Client T) : ConnectStatus × Client T :=
  let status := o.connect c.asked
  (status,
    { c with
      conn := if status = .null then none else some c.opened
      isConnected := status = .ok
      opened := if status = .null then c.opened else c.opened + 1
      asked := c.asked + 1 })

/-! ### Connecting -/

/-- `DB_connect_pg`. -/
def connect (o : Oracle) (t : T) (c : Client T) : Option (Bool × Client T) :=
  (mutexLock t c).bind fun c =>
    if c.inTransaction then some (false, mutexUnlock t c)
    else
      let (status, c) := openConnection o (closeConnection c)
      let c := mutexUnlock t c
      if status = .ok then
        if c.saveLog then (writeLog t false c).map fun c => (true, c) else some (true, c)
      else (writeLog t true c).map fun c => (false, c)

/-- `DB_disconnect_pg`. -/
def disconnect (t : T) (c : Client T) : Option (Bool × Client T) :=
  (mutexLock t c).bind fun c =>
    if c.inTransaction then some (false, mutexUnlock t c)
    else (writeLog t false (mutexUnlock t (closeConnection c))).map fun c => (true, c)

/-- `DB_reconnect_internal_pg`. -/
def reconnectInternal (o : Oracle) (c : Client T) : Bool × Client T :=
  let (status, c) := openConnection o (closeConnection c)
  (status = .ok, c)

/-- `DB_reconnect_pg`. -/
def reconnect (o : Oracle) (t : T) (c : Client T) : Option (Bool × Client T) :=
  (mutexLock t c).bind fun c =>
    if c.inTransaction then some (false, mutexUnlock t c)
    else
      let (res, c) := reconnectInternal o c
      (writeLog t (!res) (mutexUnlock t c)).map fun c => (res, c)

/-! ### Queries -/

/-- What a query has come to when the lock is given back. -/
structure Outcome where
  success : Bool
  needsReconnectLog : Bool
  reconnectFailed : Bool
  txLost : Bool

/-- The query once more, on a new connection. -/
def retry (o : Oracle) (good : ExecStatus → Bool) (c : Client T) : Outcome × Client T :=
  let (connected, c) := reconnectInternal o c
  if connected then
    let (status, c) := pqExec o c
    (⟨good status, true, false, false⟩, c)
  else (⟨false, true, true, false⟩, c)

/-- The part of `DB_sqlQuery_pg` and `DB_getRecordsFromQuery_pg` that runs the query on a connection and,
when that is lost outside of a transaction, once more on a new one. -/
def execute (o : Oracle) (good : ExecStatus → Bool) (c : Client T) : Outcome × Client T :=
  let (status, c) := pqExec o c
  if good status then (⟨true, false, false, false⟩, c)
  else
    let (bad, c) := pqConnectionBad o c
    if bad then
      if c.inTransaction then (⟨false, false, false, true⟩, { c with isConnected := false })
      else retry o good c
    else (⟨false, false, false, false⟩, c)

/-- The lines a query writes into the log. -/
def logOutcome (t : T) (out : Outcome) (logSuccess : Bool) (c : Client T) : Option (Client T) :=
  (if out.txLost then writeLog t true c else some c).bind fun c =>
    (if out.needsReconnectLog then writeLog t out.reconnectFailed c else some c).bind fun c =>
      if out.success then if logSuccess && c.saveLog then writeLog t false c else some c
      else if !out.reconnectFailed then writeLog t true c
      else some c

/-- The results that `DB_sqlQuery_pg` takes for a success. -/
def commandOrTuples (status : ExecStatus) : Bool := status = .commandOk || status = .tuplesOk

/-- `DB_sqlQuery_pg`. -/
def sqlQuery (o : Oracle) (t : T) (c : Client T) : Option (Bool × Client T) :=
  (mutexLock t c).bind fun c =>
    if c.conn = none then some (false, mutexUnlock t c)
    else
      let (out, c) := execute o commandOrTuples c
      (logOutcome t out true (mutexUnlock t c)).map fun c => (out.success, c)

/-- `DB_tx_query_pg`: no connection is opened. -/
def txQuery (o : Oracle) (t : T) (c : Client T) : Option (Bool × Client T) :=
  (mutexLock t c).bind fun c =>
    if c.conn = none then some (false, mutexUnlock t c)
    else
      let (status, c) := pqExec o c
      if commandOrTuples status then
        let c := mutexUnlock t c
        if c.saveLog then (writeLog t false c).map fun c => (true, c) else some (true, c)
      else
        let (bad, c) := pqConnectionBad o c
        let c := if bad then { c with isConnected := false } else c
        (writeLog t true (mutexUnlock t c)).map fun c => (false, c)

/-- `DB_getRecordsFromQuery_pg`; a list that is returned is a success. -/
def getRecordsFromQuery (o : Oracle) (t : T) (c : Client T) : Option (Bool × Client T) :=
  (mutexLock t c).bind fun c =>
    if c.conn = none then some (false, mutexUnlock t c)
    else
      let (out, c) := execute o (· = .tuplesOk) c
      let (copied, c) := copyRows o c
      if out.success && !copied then some (false, mutexUnlock t c)
      else (logOutcome t out false (mutexUnlock t c)).map fun c => (out.success, c)

/-! ### Transactions -/

/-- `DB_beginTransaction_pg`: where it succeeds, the lock is kept. -/
def beginTransaction (o : Oracle) (t : T) (c : Client T) : Option (Bool × Client T) :=
  (mutexLock t c).bind fun c =>
    if c.inTransaction then some (false, mutexUnlock t c)
    else
      (sqlQuery o t c).map fun r =>
        if r.1 then (true, { r.2 with inTransaction := true }) else (false, mutexUnlock t r.2)

/-- `DB_commit_pg`: a commit that fails is rolled back, and both locks are given back. -/
def commit (o : Oracle) (t : T) (c : Client T) : Option (Bool × Client T) :=
  (mutexLock t c).bind fun c =>
    if !c.inTransaction then some (false, mutexUnlock t c)
    else
      (txQuery o t c).bind fun r =>
        (if r.1 then some r else txQuery o t r.2).map fun r' =>
          (r.1, mutexUnlock t (mutexUnlock t { r'.2 with inTransaction := false }))

/-- `DB_rollback_pg`. -/
def rollback (o : Oracle) (t : T) (c : Client T) : Option (Bool × Client T) :=
  (mutexLock t c).bind fun c =>
    if !c.inTransaction then some (false, mutexUnlock t c)
    else
      (txQuery o t c).map fun r =>
        (r.1, mutexUnlock t (mutexUnlock t { r.2 with inTransaction := false }))

/-- The calls of the interface. -/
inductive Op where
  | connect
  | disconnect
  | reconnect
  | sqlQuery
  | getRecordsFromQuery
  | beginTransaction
  | commit
  | rollback
deriving DecidableEq

/-- A call of a thread: what it returns, and the client afterwards. -/
def call (o : Oracle) (t : T) : Op → Client T → Option (Bool × Client T)
  | .connect => Pgsql.connect o t
  | .disconnect => Pgsql.disconnect t
  | .reconnect => Pgsql.reconnect o t
  | .sqlQuery => Pgsql.sqlQuery o t
  | .getRecordsFromQuery => Pgsql.getRecordsFromQuery o t
  | .beginTransaction => Pgsql.beginTransaction o t
  | .commit => Pgsql.commit o t
  | .rollback => Pgsql.rollback o t

/-- A sequence of calls of any threads. -/
def run (o : Oracle) : Client T → List (T × Op) → Option (Client T)
  | c, [] => some c
  | c, (t, op) :: calls => (call o t op c).bind fun r => run o r.2 calls

/-! ### What the operations leave alone -/

section Keeps

omit [DecidableEq T]

/-- No connection was closed, opened or put in the place of another. -/
def SameConnection (c c' : Client T) : Prop :=
  c'.conn = c.conn ∧ c'.finished = c.finished ∧ c'.opened = c.opened

theorem SameConnection.refl (c : Client T) : SameConnection c c := ⟨rfl, rfl, rfl⟩

theorem SameConnection.trans {a b c : Client T} (h : SameConnection a b) (h' : SameConnection b c) :
    SameConnection a c :=
  ⟨h'.1.trans h.1, h'.2.1.trans h.2.1, h'.2.2.trans h.2.2⟩

/-- The lock and the transaction are as before, and in a transaction the connection is too. -/
structure Keeps (c c' : Client T) : Prop where
  lock : c'.lock = c.lock
  inTransaction : c'.inTransaction = c.inTransaction
  connection : c.inTransaction = true → SameConnection c c'

theorem Keeps.refl (c : Client T) : Keeps c c := ⟨rfl, rfl, fun _ => .refl c⟩

theorem Keeps.trans {a b c : Client T} (h : Keeps a b) (h' : Keeps b c) : Keeps a c where
  lock := h'.lock.trans h.lock
  inTransaction := h'.inTransaction.trans h.inTransaction
  connection htx := (h.connection htx).trans (h'.connection (h.inTransaction.trans htx))

/-- Outside of a transaction the connection may change. -/
theorem Keeps.of_idle {c c' : Client T} (hidle : c.inTransaction = false) (hlock : c'.lock = c.lock)
    (htx : c'.inTransaction = false) : Keeps c c' where
  lock := hlock
  inTransaction := htx.trans hidle.symm
  connection h := by rw [hidle] at h; cases h

theorem keeps_retry (o : Oracle) (good : ExecStatus → Bool) {c : Client T}
    (hidle : c.inTransaction = false) : Keeps c (retry o good c).2 := by
  cases hconnected : (reconnectInternal o c).1 with
  | true =>
      simp only [retry, hconnected, if_true]
      exact .of_idle hidle rfl rfl
  | false =>
      simp only [retry, hconnected]
      exact .of_idle hidle rfl rfl

/-- A query keeps the connection of a transaction, even where it is lost. -/
theorem keeps_execute (o : Oracle) (good : ExecStatus → Bool) (c : Client T) :
    Keeps c (execute o good c).2 := by
  by_cases hgood : good (o.exec c.asked) = true
  · simp only [execute, pqExec, hgood, if_true]
    exact ⟨rfl, rfl, fun _ => ⟨rfl, rfl, rfl⟩⟩
  by_cases hbad : o.connectionBad (c.asked + 1) = true
  · by_cases htx : c.inTransaction = true
    · simp only [execute, pqExec, pqConnectionBad, hgood, hbad, htx, if_true]
      exact ⟨rfl, htx.symm, fun _ => ⟨rfl, rfl, rfl⟩⟩
    · -- outside of a transaction a new connection is opened
      simp only [execute, pqExec, pqConnectionBad, hgood, hbad, htx, if_true]
      have hkeeps := keeps_retry o good
        (show { c with asked := c.asked + 1 + 1 }.inTransaction = false by simpa using htx)
      exact ⟨hkeeps.lock, hkeeps.inTransaction, hkeeps.connection⟩
  · simp only [execute, pqExec, pqConnectionBad, hgood, hbad]
    exact ⟨rfl, rfl, fun _ => ⟨rfl, rfl, rfl⟩⟩

/-- A return behind the unlock. -/
theorem Keeps.returned {b r : Bool} {c c₂ c' : Client T} (hkeeps : Keeps c c₂)
    (h : some (b, c₂) = some (r, c')) : Keeps c c' := by
  obtain ⟨-, rfl⟩ := Prod.mk.inj (Option.some.inj h)
  exact hkeeps

/-- No other thread has the lock. -/
def Available (t : T) (c : Client T) : Prop := c.lock = .free ∨ ∃ below, c.lock = .held t below

theorem Available.of_keeps {t : T} {c c' : Client T} (h : Available t c) (hkeeps : Keeps c c') : Available t c' := by
  rw [Available, hkeeps.lock]
  exact h

end Keeps

/-- Locking changes nothing but the lock. -/
theorem mutexLock_eq {t : T} {c c' : Client T} (h : mutexLock t c = some c') :
    ∃ lock, c.lock.lock t = some lock ∧ c' = { c with lock := lock } := by
  obtain ⟨lock, hlock, rfl⟩ := Option.map_eq_some_iff.mp h
  exact ⟨lock, hlock, rfl⟩

/-- What is kept between a lock and its unlock is kept altogether. -/
theorem Keeps.unlock {t : T} {c c₁ c₂ : Client T} (hlock : mutexLock t c = some c₁)
    (h : Keeps c₁ c₂) : Keeps c (mutexUnlock t c₂) := by
  obtain ⟨lock, hl, rfl⟩ := mutexLock_eq hlock
  refine ⟨?_, h.inTransaction, h.connection⟩
  rw [mutexUnlock, h.lock]
  exact RecursiveMutex.unlock_lock hl

/-- The log leaves everything as it is. -/
theorem writeLog_eq {t : T} {isError : Bool} {c c' : Client T} (h : writeLog t isError c = some c') :
    c' = c := by
  rw [writeLog] at h
  split at h
  · exact (Option.some.inj h).symm
  · obtain ⟨c₁, hlock, rfl⟩ := Option.map_eq_some_iff.mp h
    obtain ⟨lock, hl, rfl⟩ := mutexLock_eq hlock
    simp only [mutexUnlock, RecursiveMutex.unlock_lock hl]

theorem logOutcome_eq {t : T} {out : Outcome} {logSuccess : Bool} {c c' : Client T}
    (h : logOutcome t out logSuccess c = some c') : c' = c := by
  have hif : ∀ {p : Bool} {e : Bool} {c c' : Client T},
      (if p then writeLog t e c else some c) = some c' → c' = c := by
    intro p e c c' h
    cases p with
    | true => exact writeLog_eq h
    | false => exact (Option.some.inj h).symm
  obtain ⟨c₁, h₁, hrest⟩ := Option.bind_eq_some_iff.mp h
  obtain ⟨c₂, h₂, hlast⟩ := Option.bind_eq_some_iff.mp hrest
  rw [← hif h₁, ← hif h₂]
  split at hlast
  · exact hif hlast
  · exact hif hlast

/-! ### The operations -/

section Operations

variable {o : Oracle} {t : T} {c c' : Client T} {r : Bool}

/-- A line in the log, and a return. -/
theorem Keeps.logged {b isError : Bool} {c₂ : Client T} (hkeeps : Keeps c c₂)
    (h : (writeLog t isError c₂).map (fun c => (b, c)) = some (r, c')) : Keeps c c' := by
  obtain ⟨c₃, hlog, h⟩ := Option.map_eq_some_iff.mp h
  obtain ⟨-, rfl⟩ := Prod.mk.inj h
  rwa [writeLog_eq hlog]

theorem Keeps.reported {b logSuccess : Bool} {out : Outcome} {c₂ : Client T} (hkeeps : Keeps c c₂)
    (h : (logOutcome t out logSuccess c₂).map (fun c => (b, c)) = some (r, c')) : Keeps c c' := by
  obtain ⟨c₃, hlog, h⟩ := Option.map_eq_some_iff.mp h
  obtain ⟨-, rfl⟩ := Prod.mk.inj h
  rwa [logOutcome_eq hlog]

theorem keeps_connect (h : connect o t c = some (r, c')) : Keeps c c' := by
  obtain ⟨c₁, hlock, h⟩ := Option.bind_eq_some_iff.mp h
  by_cases htx : c₁.inTransaction = true
  · rw [if_pos htx] at h
    exact (Keeps.unlock hlock (.refl c₁)).returned h
  · have hkeeps : Keeps c (mutexUnlock t (openConnection o (closeConnection c₁)).2) :=
      .unlock hlock (.of_idle (by simpa using htx) rfl rfl)
    rw [if_neg htx] at h
    simp only at h
    split at h
    · split at h
      · exact hkeeps.logged h
      · exact hkeeps.returned h
    · exact hkeeps.logged h

theorem keeps_disconnect (h : disconnect t c = some (r, c')) : Keeps c c' := by
  obtain ⟨c₁, hlock, h⟩ := Option.bind_eq_some_iff.mp h
  by_cases htx : c₁.inTransaction = true
  · rw [if_pos htx] at h
    exact (Keeps.unlock hlock (.refl c₁)).returned h
  · rw [if_neg htx] at h
    have hkeeps : Keeps c (mutexUnlock t (closeConnection c₁)) :=
      .unlock hlock (.of_idle (by simpa using htx) rfl rfl)
    exact hkeeps.logged h

theorem keeps_reconnect (h : reconnect o t c = some (r, c')) : Keeps c c' := by
  obtain ⟨c₁, hlock, h⟩ := Option.bind_eq_some_iff.mp h
  by_cases htx : c₁.inTransaction = true
  · rw [if_pos htx] at h
    exact (Keeps.unlock hlock (.refl c₁)).returned h
  · rw [if_neg htx] at h
    have hkeeps : Keeps c (mutexUnlock t (reconnectInternal o c₁).2) :=
      .unlock hlock (.of_idle (by simpa using htx) rfl rfl)
    exact hkeeps.logged h

theorem keeps_sqlQuery (h : sqlQuery o t c = some (r, c')) : Keeps c c' := by
  obtain ⟨c₁, hlock, h⟩ := Option.bind_eq_some_iff.mp h
  by_cases hconn : c₁.conn = none
  · rw [if_pos hconn] at h
    exact (Keeps.unlock hlock (.refl c₁)).returned h
  · rw [if_neg hconn] at h
    exact (Keeps.unlock hlock (keeps_execute o commandOrTuples c₁)).reported h

theorem keeps_getRecordsFromQuery (h : getRecordsFromQuery o t c = some (r, c')) : Keeps c c' := by
  obtain ⟨c₁, hlock, h⟩ := Option.bind_eq_some_iff.mp h
  by_cases hconn : c₁.conn = none
  · rw [if_pos hconn] at h
    exact (Keeps.unlock hlock (.refl c₁)).returned h
  · rw [if_neg hconn] at h
    have hkeeps : Keeps c₁ (copyRows o (execute o (· = .tuplesOk) c₁).2).2 :=
      (keeps_execute o _ c₁).trans ⟨rfl, rfl, fun _ => ⟨rfl, rfl, rfl⟩⟩
    simp only at h
    split at h
    · exact (hkeeps.unlock hlock).returned h
    · exact (hkeeps.unlock hlock).reported h

theorem keeps_txQuery (h : txQuery o t c = some (r, c')) : Keeps c c' := by
  obtain ⟨c₁, hlock, h⟩ := Option.bind_eq_some_iff.mp h
  by_cases hconn : c₁.conn = none
  · rw [if_pos hconn] at h
    exact (Keeps.unlock hlock (.refl c₁)).returned h
  rw [if_neg hconn] at h
  have hexec : Keeps c₁ (pqExec o c₁).2 := ⟨rfl, rfl, fun _ => ⟨rfl, rfl, rfl⟩⟩
  simp only at h
  split at h
  · split at h
    · exact (hexec.unlock hlock).logged h
    · exact (hexec.unlock hlock).returned h
  · refine Keeps.logged (Keeps.unlock hlock ?_) h
    split <;> exact ⟨rfl, rfl, fun _ => ⟨rfl, rfl, rfl⟩⟩

/-! ### Transactions -/

/-- A begin that succeeds opens the transaction and keeps one lock; else all is as before. -/
theorem beginTransaction_spec (h : beginTransaction o t c = some (r, c')) :
    (r = true ∧ c.inTransaction = false ∧ c'.inTransaction = true ∧ c.lock.lock t = some c'.lock) ∨
      (r = false ∧ Keeps c c') := by
  obtain ⟨c₁, hlock, h⟩ := Option.bind_eq_some_iff.mp h
  by_cases htx : c₁.inTransaction = true
  · rw [if_pos htx] at h
    obtain ⟨rfl, rfl⟩ := Prod.mk.inj (Option.some.inj h)
    exact .inr ⟨rfl, .unlock hlock (.refl c₁)⟩
  rw [if_neg htx] at h
  obtain ⟨⟨ok, c₂⟩, hquery, h⟩ := Option.map_eq_some_iff.mp h
  have hkeeps := keeps_sqlQuery hquery
  cases ok with
  | true =>
      obtain ⟨rfl, rfl⟩ := Prod.mk.inj h
      obtain ⟨lock, hl, rfl⟩ := mutexLock_eq hlock
      exact .inl ⟨rfl, by simpa using htx, rfl, hl.trans (congrArg some hkeeps.lock.symm)⟩
  | false =>
      obtain ⟨rfl, rfl⟩ := Prod.mk.inj h
      exact .inr ⟨rfl, hkeeps.unlock hlock⟩

/-- The end of a transaction: two unlocks, on a client that is otherwise as before. -/
structure Ends (t : T) (c c' : Client T) : Prop where
  inTransaction : c'.inTransaction = false
  lock : c'.lock = c.lock.unlock t
  connection : SameConnection c c'

theorem Ends.of_keeps {c₁ c₂ : Client T} (htx : c.inTransaction = true)
    (hlock : mutexLock t c = some c₁) (h : Keeps c₁ c₂) :
    Ends t c (mutexUnlock t (mutexUnlock t { c₂ with inTransaction := false })) := by
  have hkeeps := h.unlock hlock
  exact ⟨rfl, congrArg (RecursiveMutex.unlock t) hkeeps.lock, hkeeps.connection htx⟩

theorem commit_spec (h : commit o t c = some (r, c')) :
    (c.inTransaction = true ∧ Ends t c c') ∨ (c.inTransaction = false ∧ Keeps c c') := by
  obtain ⟨c₁, hlock, h⟩ := Option.bind_eq_some_iff.mp h
  have hsame : c₁.inTransaction = c.inTransaction := by
    obtain ⟨lock, -, rfl⟩ := mutexLock_eq hlock
    rfl
  cases htx : c₁.inTransaction with
  | false =>
      rw [htx, Bool.not_false, if_pos rfl] at h
      exact .inr ⟨hsame.symm.trans htx, (Keeps.unlock hlock (.refl c₁)).returned h⟩
  | true =>
      rw [htx, Bool.not_true, if_neg (by simp)] at h
      obtain ⟨⟨ok, c₂⟩, hquery, h⟩ := Option.bind_eq_some_iff.mp h
      obtain ⟨⟨ok', c₃⟩, hroll, h⟩ := Option.map_eq_some_iff.mp h
      obtain ⟨rfl, rfl⟩ := Prod.mk.inj h
      have hkeeps : Keeps c₁ c₃ := by
        refine (keeps_txQuery hquery).trans ?_
        cases ok with
        | true =>
            obtain ⟨-, rfl⟩ := Prod.mk.inj (Option.some.inj hroll)
            exact .refl _
        | false => exact keeps_txQuery hroll
      have htx' := hsame.symm.trans htx
      exact .inl ⟨htx', .of_keeps htx' hlock hkeeps⟩

theorem rollback_spec (h : rollback o t c = some (r, c')) :
    (c.inTransaction = true ∧ Ends t c c') ∨ (c.inTransaction = false ∧ Keeps c c') := by
  obtain ⟨c₁, hlock, h⟩ := Option.bind_eq_some_iff.mp h
  have hsame : c₁.inTransaction = c.inTransaction := by
    obtain ⟨lock, -, rfl⟩ := mutexLock_eq hlock
    rfl
  cases htx : c₁.inTransaction with
  | false =>
      rw [htx, Bool.not_false, if_pos rfl] at h
      exact .inr ⟨hsame.symm.trans htx, (Keeps.unlock hlock (.refl c₁)).returned h⟩
  | true =>
      rw [htx, Bool.not_true, if_neg (by simp)] at h
      obtain ⟨⟨ok, c₂⟩, hquery, h⟩ := Option.map_eq_some_iff.mp h
      obtain ⟨rfl, rfl⟩ := Prod.mk.inj h
      have htx' := hsame.symm.trans htx
      exact .inl ⟨htx', .of_keeps htx' hlock (keeps_txQuery hquery)⟩

end Operations

/-! ### Runs -/

section Runs

variable {o : Oracle} {t : T} {op : Op} {c c' : Client T} {r : Bool}

/-- The lock of a client between two calls: one thread has it once in a transaction, and else none. -/
def Disciplined (c : Client T) : Prop :=
  (c.inTransaction = false ∧ c.lock = .free) ∨ (c.inTransaction = true ∧ ∃ t, c.lock = .held t 0)

/-- A call that returns has had the lock. -/
theorem lock_of_call (h : call o t op c = some (r, c')) : ∃ lock, c.lock.lock t = some lock := by
  have hlocked : ∀ {f : Client T → Option (Bool × Client T)},
      (mutexLock t c).bind f = some (r, c') → ∃ lock, c.lock.lock t = some lock := by
    intro f h
    obtain ⟨c₁, hlock, -⟩ := Option.bind_eq_some_iff.mp h
    obtain ⟨lock, hl, -⟩ := mutexLock_eq hlock
    exact ⟨lock, hl⟩
  cases op <;> exact hlocked h

/-- A call keeps all, begins a transaction, or ends one. -/
theorem call_cases (h : call o t op c = some (r, c')) :
    Keeps c c' ∨
      (op = .beginTransaction ∧ r = true ∧ c.inTransaction = false ∧ c'.inTransaction = true ∧
        c.lock.lock t = some c'.lock) ∨
      ((op = .commit ∨ op = .rollback) ∧ c.inTransaction = true ∧ Ends t c c') := by
  cases op with
  | connect => exact .inl (keeps_connect h)
  | disconnect => exact .inl (keeps_disconnect h)
  | reconnect => exact .inl (keeps_reconnect h)
  | sqlQuery => exact .inl (keeps_sqlQuery h)
  | getRecordsFromQuery => exact .inl (keeps_getRecordsFromQuery h)
  | beginTransaction =>
      rcases beginTransaction_spec h with hbegin | ⟨-, hkeeps⟩
      · exact .inr (.inl ⟨rfl, hbegin⟩)
      · exact .inl hkeeps
  | commit =>
      rcases commit_spec h with ⟨htx, hends⟩ | ⟨-, hkeeps⟩
      · exact .inr (.inr ⟨.inl rfl, htx, hends⟩)
      · exact .inl hkeeps
  | rollback =>
      rcases rollback_spec h with ⟨htx, hends⟩ | ⟨-, hkeeps⟩
      · exact .inr (.inr ⟨.inr rfl, htx, hends⟩)
      · exact .inl hkeeps

/-- What **one call** does: the thread has one lock in a transaction and none else, and the connection
of a transaction stays. -/
theorem call_spec (hc : Disciplined c) (h : call o t op c = some (r, c')) :
    Disciplined c' ∧ c'.lock.depth t = (if c'.inTransaction then 1 else 0) ∧
      (c.inTransaction = true → SameConnection c c') := by
  obtain ⟨lock, hlock⟩ := lock_of_call h
  rcases call_cases h with hkeeps | ⟨-, -, hidle, htx, hl⟩ | ⟨-, htx, hends⟩
  · refine ⟨?_, ?_, hkeeps.connection⟩
    · rw [Disciplined, hkeeps.inTransaction, hkeeps.lock]
      exact hc
    · rw [hkeeps.lock, hkeeps.inTransaction]
      rcases hc with ⟨hidle, hfree⟩ | ⟨htx, owner, hheld⟩
      · rw [hfree, hidle]
        rfl
      · rw [hheld] at hlock
        rw [hheld, htx, RecursiveMutex.owner_of_lock hlock]
        simp [RecursiveMutex.depth]
  · rcases hc with ⟨-, hfree⟩ | ⟨htx', -⟩
    · rw [hfree] at hl
      have hheld : c'.lock = .held t 0 := (Option.some.inj hl).symm
      refine ⟨.inr ⟨htx, t, hheld⟩, ?_, fun h => by rw [hidle] at h; cases h⟩
      rw [hheld, htx]
      simp [RecursiveMutex.depth]
    · rw [hidle] at htx'
      cases htx'
  · rcases hc with ⟨hidle, -⟩ | ⟨-, owner, hheld⟩
    · rw [hidle] at htx
      cases htx
    · rw [hheld] at hlock
      obtain rfl := RecursiveMutex.owner_of_lock hlock
      have hfree : c'.lock = .free := by
        rw [hends.lock, hheld]
        simp [RecursiveMutex.unlock]
      refine ⟨.inl ⟨hends.inTransaction, hfree⟩, ?_, fun _ => hends.connection⟩
      rw [hfree, hends.inTransaction]
      rfl

/-- A call other than `commit` and `rollback` leaves a transaction open. -/
theorem inTransaction_of_call (h : call o t op c = some (r, c')) (htx : c.inTransaction = true)
    (hop : op ≠ .commit ∧ op ≠ .rollback) : c'.inTransaction = true := by
  rcases call_cases h with hkeeps | ⟨-, -, -, htx', -⟩ | ⟨hend, -⟩
  · rw [hkeeps.inTransaction, htx]
  · exact htx'
  · rcases hend with rfl | rfl
    · exact absurd rfl hop.1
    · exact absurd rfl hop.2

theorem disciplined_run {calls : List (T × Op)} (hc : Disciplined c) (h : run o c calls = some c') :
    Disciplined c' := by
  induction calls generalizing c with
  | nil =>
      obtain rfl := Option.some.inj h
      exact hc
  | cons e calls ih =>
      obtain ⟨⟨r, c₁⟩, hcall, h⟩ := Option.bind_eq_some_iff.mp h
      exact ih (call_spec hc hcall).1 h

/-- As long as it is not ended, a transaction stays open on its connection. -/
theorem sameConnection_run {calls : List (T × Op)} (hc : Disciplined c) (htx : c.inTransaction = true)
    (hcalls : ∀ e ∈ calls, e.2 ≠ .commit ∧ e.2 ≠ .rollback) (h : run o c calls = some c') :
    c'.inTransaction = true ∧ SameConnection c c' := by
  induction calls generalizing c with
  | nil =>
      obtain rfl := Option.some.inj h
      exact ⟨htx, .refl c⟩
  | cons e calls ih =>
      obtain ⟨⟨r, c₁⟩, hcall, h⟩ := Option.bind_eq_some_iff.mp h
      obtain ⟨he, hcalls⟩ := List.forall_mem_cons.mp hcalls
      obtain ⟨hc₁, -, hsame⟩ := call_spec hc hcall
      obtain ⟨htx', hsame'⟩ := ih hc₁ (inTransaction_of_call hcall htx he) hcalls h
      exact ⟨htx', (hsame htx).trans hsame'⟩

/-! A thread never waits for itself: a call returns when no other thread has the lock. -/

theorem Available.mutexLock (h : Available t c) : ∃ c₁, Pgsql.mutexLock t c = some c₁ := by
  obtain ⟨lock, hlock⟩ := Option.isSome_iff_exists.mp (RecursiveMutex.lock_isSome h)
  exact ⟨_, by rw [Pgsql.mutexLock, hlock]; rfl⟩

/-- The thread that has the lock can have it again. -/
theorem available_of_mutexLock (h : mutexLock t c = some c') : Available t c' := by
  obtain ⟨lock, hlock, rfl⟩ := mutexLock_eq h
  cases hc : c.lock with
  | free =>
      rw [hc] at hlock
      exact .inr ⟨0, (Option.some.inj hlock).symm⟩
  | held owner below =>
      rw [hc] at hlock
      obtain rfl := RecursiveMutex.owner_of_lock hlock
      exact .inr ⟨below + 1, by simpa [RecursiveMutex.lock] using hlock.symm⟩

theorem Available.writeLog (h : Available t c) (isError : Bool) : Pgsql.writeLog t isError c = some c := by
  obtain ⟨c₁, hlock⟩ := h.mutexLock
  have hsome : (Pgsql.writeLog t isError c).isSome = true := by
    rw [Pgsql.writeLog, hlock]
    split <;> rfl
  obtain ⟨c', hc'⟩ := Option.isSome_iff_exists.mp hsome
  rw [hc', writeLog_eq hc']

theorem Available.logOutcome (h : Available t c) (out : Outcome) (logSuccess : Bool) :
    Pgsql.logOutcome t out logSuccess c = some c := by
  have hif : ∀ p e : Bool, (if p then Pgsql.writeLog t e c else some c) = some c := by
    intro p e
    cases p with
    | true => exact h.writeLog e
    | false => rfl
  rw [Pgsql.logOutcome, hif, Option.bind_some, hif, Option.bind_some, hif, hif, ite_self]

theorem Available.sqlQuery (h : Available t c) : ∃ r, Pgsql.sqlQuery o t c = some r := by
  obtain ⟨c₁, hlock⟩ := h.mutexLock
  have hlog := (h.of_keeps ((keeps_execute o commandOrTuples c₁).unlock hlock)).logOutcome
    (execute o commandOrTuples c₁).1 true
  rw [Pgsql.sqlQuery, hlock, Option.bind_some]
  split
  · exact ⟨_, rfl⟩
  · exact ⟨_, congrArg (Option.map _) hlog⟩

theorem Available.getRecordsFromQuery (h : Available t c) :
    ∃ r, Pgsql.getRecordsFromQuery o t c = some r := by
  obtain ⟨c₁, hlock⟩ := h.mutexLock
  have hkeeps : Keeps c₁ (copyRows o (execute o (· = .tuplesOk) c₁).2).2 :=
    (keeps_execute o _ c₁).trans ⟨rfl, rfl, fun _ => ⟨rfl, rfl, rfl⟩⟩
  have hlog := (h.of_keeps (hkeeps.unlock hlock)).logOutcome (execute o (· = .tuplesOk) c₁).1 false
  rw [Pgsql.getRecordsFromQuery, hlock, Option.bind_some]
  split
  · exact ⟨_, rfl⟩
  · simp only
    split
    · exact ⟨_, rfl⟩
    · exact ⟨_, congrArg (Option.map _) hlog⟩

theorem Available.txQuery (h : Available t c) : ∃ r, Pgsql.txQuery o t c = some r := by
  obtain ⟨c₁, hlock⟩ := h.mutexLock
  have hexec : Keeps c₁ (pqExec o c₁).2 := ⟨rfl, rfl, fun _ => ⟨rfl, rfl, rfl⟩⟩
  rw [Pgsql.txQuery, hlock, Option.bind_some]
  split
  · exact ⟨_, rfl⟩
  · simp only
    split
    · split
      · exact ⟨_, congrArg (Option.map _) ((h.of_keeps (hexec.unlock hlock)).writeLog false)⟩
      · exact ⟨_, rfl⟩
    · refine ⟨_, congrArg (Option.map _) (Available.writeLog (h.of_keeps (.unlock hlock ?_)) true)⟩
      split <;> exact ⟨rfl, rfl, fun _ => ⟨rfl, rfl, rfl⟩⟩

/-- A call **returns** when no other thread has the lock. -/
theorem Available.call (h : Available t c) : ∃ r, Pgsql.call o t op c = some r := by
  obtain ⟨c₁, hlock⟩ := h.mutexLock
  have h₁ := available_of_mutexLock hlock
  have hidle : ∀ c₂ : Client T, ¬c₁.inTransaction = true → c₂.lock = c₁.lock →
      c₂.inTransaction = false → Available t (mutexUnlock t c₂) :=
    fun c₂ hidle hl htx => h.of_keeps (.unlock hlock (.of_idle (by simpa using hidle) hl htx))
  cases op with
  | sqlQuery => exact h.sqlQuery
  | getRecordsFromQuery => exact h.getRecordsFromQuery
  | connect =>
      rw [Pgsql.call, Pgsql.connect, hlock, Option.bind_some]
      split
      · exact ⟨_, rfl⟩
      · rename_i htx
        have hlog := hidle (openConnection o (closeConnection c₁)).2 htx rfl rfl
        simp only
        split
        · split
          · exact ⟨_, congrArg (Option.map _) (hlog.writeLog false)⟩
          · exact ⟨_, rfl⟩
        · exact ⟨_, congrArg (Option.map _) (hlog.writeLog true)⟩
  | disconnect =>
      rw [Pgsql.call, Pgsql.disconnect, hlock, Option.bind_some]
      split
      · exact ⟨_, rfl⟩
      · rename_i htx
        have hlog := hidle (closeConnection c₁) htx rfl rfl
        exact ⟨_, congrArg (Option.map _) (hlog.writeLog false)⟩
  | reconnect =>
      rw [Pgsql.call, Pgsql.reconnect, hlock, Option.bind_some]
      split
      · exact ⟨_, rfl⟩
      · rename_i htx
        have hlog := hidle (reconnectInternal o c₁).2 htx rfl rfl
        exact ⟨_, congrArg (Option.map _) (hlog.writeLog _)⟩
  | beginTransaction =>
      rw [Pgsql.call, Pgsql.beginTransaction, hlock, Option.bind_some]
      obtain ⟨q, hquery⟩ := h₁.sqlQuery (o := o)
      rw [hquery]
      split <;> exact ⟨_, rfl⟩
  | commit =>
      rw [Pgsql.call, Pgsql.commit, hlock, Option.bind_some]
      obtain ⟨⟨ok, c₂⟩, hquery⟩ := h₁.txQuery (o := o)
      rw [hquery]
      split
      · exact ⟨_, rfl⟩
      · cases ok with
        | true => exact ⟨_, rfl⟩
        | false =>
            obtain ⟨q, hroll⟩ := (h₁.of_keeps (keeps_txQuery hquery)).txQuery (o := o)
            exact ⟨_, congrArg (Option.map _) hroll⟩
  | rollback =>
      rw [Pgsql.call, Pgsql.rollback, hlock, Option.bind_some]
      obtain ⟨q, hquery⟩ := h₁.txQuery (o := o)
      rw [hquery]
      split <;> exact ⟨_, rfl⟩

/-- **Transaction discipline.** After every call of every run, the calling thread holds one lock if a
transaction is open, and none else. And from a begin that succeeds on, through any calls that do not end
the transaction, and through the call that ends it, no connection is closed, opened or replaced. -/
theorem transaction_discipline (o : Oracle) {saveLog : Bool} {calls : List (T × Op)} {c : Client T}
    (hrun : run o (.new T saveLog) calls = some c) :
    (∀ t op r c', call o t op c = some (r, c') →
        c'.lock.depth t = if c'.inTransaction then 1 else 0) ∧
      ∀ t c₁, call o t .beginTransaction c = some (true, c₁) →
        ∀ more c₂, (∀ e ∈ more, e.2 ≠ .commit ∧ e.2 ≠ .rollback) → run o c₁ more = some c₂ →
          c₂.inTransaction = true ∧ SameConnection c₁ c₂ ∧
            ∀ t' op r c₃, call o t' op c₂ = some (r, c₃) → SameConnection c₁ c₃ := by
  have hc : Disciplined c := disciplined_run (.inl ⟨rfl, rfl⟩) hrun
  refine ⟨fun t op r c' h => (call_spec hc h).2.1, fun t c₁ hbegin more c₂ hmore hrun' => ?_⟩
  have hc₁ := (call_spec hc hbegin).1
  have htx : c₁.inTransaction = true := by
    rcases beginTransaction_spec hbegin with ⟨-, -, htx, -⟩ | ⟨hr, -⟩
    · exact htx
    · cases hr
  obtain ⟨htx', hsame⟩ := sameConnection_run hc₁ htx hmore hrun'
  refine ⟨htx', hsame, fun t' op r c₃ hcall => ?_⟩
  exact hsame.trans ((call_spec (disciplined_run hc₁ hrun') hcall).2.2 htx')

/-- A server that answers every question well. -/
def goodOracle : Oracle where
  exec _ := .tuplesOk
  connectionBad _ := false
  connect _ := .ok
  copied _ := true

/-- A client that is connected. -/
def sampleClient : Client ℕ where
  conn := some 0
  isConnected := true
  inTransaction := false
  saveLog := true
  lock := .free
  finished := []
  opened := 1
  asked := 1

/-- And in a transaction, after a begin and a query. -/
theorem transaction_discipline_sample :
    ∃ c₁ c₂, run goodOracle (.new ℕ true) [(7, .connect)] = some sampleClient ∧
      call goodOracle 7 .beginTransaction sampleClient = some (true, c₁) ∧ c₁.lock.depth 7 = 1 ∧
      run goodOracle c₁ [(7, .sqlQuery)] = some c₂ ∧ SameConnection c₁ c₂ := by
  have hrun : run goodOracle (.new ℕ true) [(7, .connect)] = some sampleClient := rfl
  have hbegin : call goodOracle 7 .beginTransaction sampleClient =
      some (true, { sampleClient with inTransaction := true, lock := .held 7 0, asked := 2 }) := rfl
  have hmore : run goodOracle { sampleClient with inTransaction := true, lock := .held 7 0, asked := 2 }
      [(7, .sqlQuery)] =
        some { sampleClient with inTransaction := true, lock := .held 7 0, asked := 3 } := rfl
  obtain ⟨hdepth, hsame⟩ := transaction_discipline goodOracle hrun
  exact ⟨_, _, hrun, hbegin, hdepth _ _ _ _ hbegin, hmore,
    (hsame _ _ hbegin _ _ (by decide) hmore).2.1⟩

end Runs

end Pgsql
