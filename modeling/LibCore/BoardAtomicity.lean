import LibCore.BoardHandler
import LibCore.Pgsql

/-!
# The Board: Two Stores, One Outcome

What the handlers of the board leave behind, on every exit. A handler goes through stages: it has saved a
file or not (`Idle`), it has a transaction (`Begun`), the transaction is committed (`Committed`). Every
exit is one of three: without anything to undo, with a rollback and the deletion of the new file, or behind
a commit. There is one rule for each step of a handler, and the proofs for the handlers follow their text.

A `ROLLBACK` that fails on a connection that is there is the one thing the handlers do not make good: none of
them looks at what it returns, and the transaction of the database stays open. The clients of MySQL and of
PostgreSQL clear `in_transaction` even then, as `db.h` has it; that of SQLite keeps it.

## Main results

* `serve_ends`: how every handler ends.
* `atomic_iff`: when every run of requests leaves no transaction open, no new file without a row, and no row
  without its file.
-/

open CString Radix Multipart

namespace BoardHandler

/-! ### Traces -/

/-- The events that leave the files alone and commit nothing. -/
def IsQuiet : Event → Prop
  | .saved _ | .deleted _ => False
  | .committed ok => ok = false
  | .began _ | .rolledBack _ => True

/-- The events of the new file. -/
def saves (upload : Option Bytes) : List Event := upload.toList.map .saved

/-- A request that has changed nothing: the new file is deleted again. -/
def Undone (upload : Option Bytes) (trace : List Event) : Prop :=
  ∃ middle, (∀ e ∈ middle, IsQuiet e) ∧ trace = saves upload ++ middle ++ upload.toList.map .deleted

/-- A request that is committed: behind that, files other than the new one may be deleted. -/
def Kept (upload : Option Bytes) (trace : List Event) : Prop :=
  ∃ middle, ∃ paths : List Bytes, (∀ e ∈ middle, IsQuiet e) ∧ (∀ p ∈ upload, p ∉ paths) ∧
    trace = saves upload ++ middle ++ .committed true :: paths.map .deleted

/-- **Atomicity** of a request: the database has no transaction open; the new file is deleted unless the
request is committed; and any other file is deleted behind the commit only. -/
structure Atomic (w : World) : Prop where
  closed : w.isOpen = false
  discards : ∀ p, .saved p ∈ w.trace → (.deleted p ∈ w.trace ↔ .committed true ∉ w.trace)
  keeps : ∀ before after p, w.trace = before ++ .deleted p :: after →
    .saved p ∈ before ∨ .committed true ∈ before

section Traces

variable {upload : Option Bytes} {middle : List Event} {p : Bytes}

theorem mem_saves {e : Event} : e ∈ saves upload ↔ ∃ p, upload = some p ∧ e = .saved p := by
  cases upload <;> simp [saves]

theorem saved_notMem_quiet (h : ∀ e ∈ middle, IsQuiet e) : .saved p ∉ middle := fun hmem => h _ hmem

theorem deleted_notMem_quiet (h : ∀ e ∈ middle, IsQuiet e) : .deleted p ∉ middle := fun hmem => h _ hmem

theorem committed_notMem_quiet (h : ∀ e ∈ middle, IsQuiet e) : .committed true ∉ middle :=
  fun hmem => Bool.noConfusion (h _ hmem)

/-- A deletion stands behind everything that stands in front of all deletions. -/
theorem mem_before_of_deleted {front paths : List Event} {e : Event} {before after : List Event}
    (hfront : .deleted p ∉ front) (he : e ∈ front)
    (h : front ++ paths = before ++ .deleted p :: after) : e ∈ before := by
  rcases List.append_eq_append_iff.mp h with ⟨rest, rfl, -⟩ | ⟨rest, rfl, hrest⟩
  · exact List.mem_append_left _ he
  · cases rest with
    | nil => simpa using he
    | cons x rest =>
        obtain ⟨rfl, -⟩ := List.cons.inj hrest
        exact absurd (by simp) hfront

theorem Undone.discards {trace : List Event} (h : Undone upload trace) (hp : .saved p ∈ trace) :
    .deleted p ∈ trace ∧ .committed true ∉ trace := by
  obtain ⟨middle, hquiet, rfl⟩ := h
  have hupload : upload = some p := by
    simpa [mem_saves, saved_notMem_quiet hquiet, eq_comm] using hp
  subst hupload
  refine ⟨by simp, ?_⟩
  simp [mem_saves, committed_notMem_quiet hquiet]

theorem Kept.discards {trace : List Event} (h : Kept upload trace) (hp : .saved p ∈ trace) :
    .deleted p ∉ trace ∧ .committed true ∈ trace := by
  obtain ⟨middle, paths, hquiet, hpaths, rfl⟩ := h
  have hupload : upload = some p := by
    simpa [mem_saves, saved_notMem_quiet hquiet, eq_comm] using hp
  subst hupload
  refine ⟨?_, by simp⟩
  simpa [mem_saves, deleted_notMem_quiet hquiet] using hpaths p rfl

theorem Undone.keeps {trace before after : List Event} (h : Undone upload trace)
    (htrace : trace = before ++ .deleted p :: after) : .saved p ∈ before := by
  obtain ⟨middle, hquiet, rfl⟩ := h
  have hfront : .deleted p ∉ saves upload ++ middle := by
    simp [mem_saves, deleted_notMem_quiet hquiet]
  have hmem : .deleted p ∈ saves upload ++ middle ++ upload.toList.map .deleted := by
    rw [htrace]
    simp
  have hupload : upload = some p := by
    rcases List.mem_append.mp hmem with hmem | hmem
    · exact absurd hmem hfront
    · simpa using hmem
  refine mem_before_of_deleted hfront ?_ htrace
  simp [mem_saves, hupload]

theorem Kept.keeps {trace before after : List Event} (h : Kept upload trace)
    (htrace : trace = before ++ .deleted p :: after) : .committed true ∈ before := by
  obtain ⟨middle, paths, hquiet, -, rfl⟩ := h
  rw [List.append_cons] at htrace
  refine mem_before_of_deleted ?_ (by simp) htrace
  simp [mem_saves, deleted_notMem_quiet hquiet]

end Traces

/-! ### Stages -/

/-- Only the client of SQLite can have its flag set between requests. -/
def FlagClear (client : Client) (w : World) : Prop := w.inTransaction = true → client = .sqlite

/-- How a handler ends. -/
structure Ends (client : Client) (answer : Answer) (w : World) : Prop where
  isOpen : w.isOpen = true → answer = .failed
  flag : FlagClear client w
  trace : ∃ upload, Undone upload w.trace ∨ Kept upload w.trace

/-- A handler that ends well is atomic. -/
theorem Ends.atomic {client : Client} {answer : Answer} {w : World} (h : Ends client answer w)
    (hanswer : answer ≠ .failed) : Atomic w := by
  obtain ⟨upload, hends⟩ := h.trace
  refine ⟨by simpa using mt h.isOpen hanswer, fun p hp => ?_, fun before after p htrace => ?_⟩
  · rcases hends with hends | hends
    · exact iff_of_true (hends.discards hp).1 (hends.discards hp).2
    · exact iff_of_false (hends.discards hp).1 (not_not_intro (hends.discards hp).2)
  · rcases hends with hends | hends
    · exact .inl (hends.keeps htrace)
    · exact .inr (hends.keeps htrace)

/-- Before the transaction. -/
structure Idle (client : Client) (upload : Option Bytes) (w : World) : Prop where
  isOpen : w.isOpen = false
  flag : FlagClear client w
  trace : w.trace = saves upload

/-- Behind the beginning, and before a commit has succeeded: a client that will not ask for the rollback has
asked for it already. -/
structure Pending (client : Client) (answer : Answer) (upload : Option Bytes) (w : World) : Prop where
  asks : client = .pgsql → w.inTransaction = false → w.isOpen = true → answer = .failed
  trace : ∃ middle, (∀ e ∈ middle, IsQuiet e) ∧ w.trace = saves upload ++ middle

/-- Within the transaction. -/
structure Begun (client : Client) (answer : Answer) (upload : Option Bytes) (w : World) : Prop where
  flag : w.inTransaction = true
  isOpen : w.isOpen = true
  pending : Pending client answer upload w

/-- Behind the commit. -/
structure Committed (client : Client) (upload : Option Bytes) (w : World) : Prop where
  isOpen : w.isOpen = false
  flag : FlagClear client w
  trace : ∃ middle, (∀ e ∈ middle, IsQuiet e) ∧ w.trace = saves upload ++ middle ++ [.committed true]

section Rules

variable {D : Type} {client : Client} {env : Env D} {upload : Option Bytes} {w : World} {reply : Reply}
  {failure : String}

/-- The postcondition of the rules. -/
def Post (client : Client) (env : Env D) (r : World × Reply) : Prop := Ends client env.rollback r.1

/-- One more event in front of the deletions. -/
theorem quiet_append {e : Event} {trace : List Event} (he : IsQuiet e)
    (h : ∃ middle, (∀ e ∈ middle, IsQuiet e) ∧ trace = saves upload ++ middle) :
    ∃ middle, (∀ e ∈ middle, IsQuiet e) ∧ trace ++ [e] = saves upload ++ middle := by
  obtain ⟨middle, hquiet, rfl⟩ := h
  exact ⟨middle ++ [e], List.forall_mem_append.mpr ⟨hquiet, by simpa using he⟩, by simp⟩

/-- The deletion of the new file. -/
theorem undone_discard (h : ∃ middle, (∀ e ∈ middle, IsQuiet e) ∧ w.trace = saves upload ++ middle) :
    Undone upload (discard upload w).trace := by
  obtain ⟨middle, hquiet, htrace⟩ := h
  refine ⟨middle, hquiet, ?_⟩
  cases upload <;> simp [discard, World.log, htrace]

theorem discard_inTransaction : (discard upload w).inTransaction = w.inTransaction := by
  cases upload <;> rfl

theorem discard_isOpen : (discard upload w).isOpen = w.isOpen := by
  cases upload <;> rfl

/-- A transaction that is open behind the statement was refused. -/
theorem Answer.eq_failed {answer : Answer} {isOpen : Bool} (h : answer.leaves isOpen = true) : answer = .failed := by
  cases answer
  · cases h
  · rfl
  · cases h

/-- Behind a rollback. -/
theorem Pending.rollback (h : Pending client env.rollback upload w) :
    ((rollback client env.rollback w).isOpen = true → env.rollback = .failed) ∧
      FlagClear client (rollback client env.rollback w) ∧
      ∃ e, IsQuiet e ∧ (rollback client env.rollback w).trace = w.trace ++ [e] := by
  cases client with
  | mysql =>
      exact ⟨fun hopen => Answer.eq_failed hopen,
        fun hflag => absurd hflag (by simp [BoardHandler.rollback, World.log]),
        .rolledBack env.rollback.isOk, trivial, rfl⟩
  | sqlite =>
      exact ⟨fun hopen => Answer.eq_failed hopen, fun _ => rfl, .rolledBack env.rollback.isOk, trivial, rfl⟩
  | pgsql =>
      cases hflag : w.inTransaction with
      | true =>
          simp only [BoardHandler.rollback, hflag, if_true]
          exact ⟨fun hopen => Answer.eq_failed hopen, fun hf => absurd hf (by simp [World.log]),
            .rolledBack env.rollback.isOk, trivial, rfl⟩
      | false =>
          simp only [BoardHandler.rollback, hflag, Bool.false_eq_true, if_false]
          exact ⟨h.asks rfl hflag, fun hf => absurd hf (by simp [World.log, hflag]),
            .rolledBack false, trivial, rfl⟩

/-- An exit before anything is done. -/
theorem Idle.refuse (h : Idle client none w) : Post client env (w, reply) :=
  ⟨by simp [h.isOpen], h.flag, none, .inl ⟨[], by simp, by simp [h.trace, saves]⟩⟩

/-- An exit from the transaction. -/
theorem Pending.abort (h : Pending client env.rollback upload w) :
    Post client env (abort client env upload reply w) := by
  obtain ⟨hopen, hflag, e, hquiet, htrace⟩ := h.rollback
  refine ⟨fun h => ?_, fun h => ?_, upload, .inl (undone_discard ?_)⟩
  · rw [BoardHandler.abort, discard_isOpen] at h
    exact hopen h
  · rw [BoardHandler.abort, discard_inTransaction] at h
    exact hflag h
  · rw [htrace]
    exact quiet_append hquiet h.trace

theorem Begun.abort (h : Begun client env.rollback upload w) :
    Post client env (BoardHandler.abort client env upload reply w) :=
  h.pending.abort

theorem Post.ite {c : Prop} [Decidable c] {a b : World × Reply} (ha : Post client env a)
    (hb : Post client env b) : Post client env (if c then a else b) := by
  split
  · exact ha
  · exact hb

theorem Post.elim {α : Type} {o : Option α} {a : World × Reply} {f : α → World × Reply}
    (ha : Post client env a) (hf : ∀ x, Post client env (f x)) : Post client env (o.elim a f) := by
  cases o with
  | none => exact ha
  | some x => exact hf x

/-- The file of the request. -/
theorem Idle.withUpload {maxUploadSize : ℕ} {attach : Option MultipartFile}
    {next : Option (MultipartFile × Bytes) → World → World × Reply} (h : Idle client none w)
    (hnext : ∀ file w, Idle client (file.map Prod.snd) w → Post client env (next file w)) :
    Post client env (withUpload env maxUploadSize attach w next) := by
  refine Post.elim (hnext none w h) fun attach => .ite h.refuse (.elim h.refuse fun path => ?_)
  refine hnext (some (attach, path)) _ ⟨h.isOpen, h.flag, ?_⟩
  simp [World.log, h.trace, saves]

/-- The beginning of the transaction. -/
theorem Idle.withTransaction {next : World → World × Reply} (h : Idle client upload w)
    (hnext : ∀ w, Begun client env.rollback upload w → Post client env (next w)) :
    Post client env (withTransaction client env upload failure w next) := by
  have hbegin : ∃ flag, (flag = true → client = .sqlite ∨ env.begin.isOk = true) ∧
      (env.begin.isOk = true → flag = true) ∧ beginTransaction client env.begin w =
        (env.begin.isOk, { w with inTransaction := flag, isOpen := env.begin.isOk }.log
          (.began env.begin.isOk)) := by
    have hleaves : env.begin.leaves false = false := by
      cases env.begin <;> rfl
    cases client with
    | mysql =>
        have hflag : w.inTransaction = false := by simpa using mt h.flag (by simp)
        exact ⟨env.begin.isOk, .inr, id, by simp [beginTransaction, h.isOpen, hleaves, hflag]⟩
    | pgsql =>
        have hflag : w.inTransaction = false := by simpa using mt h.flag (by simp)
        exact ⟨env.begin.isOk, .inr, id, by simp [beginTransaction, h.isOpen, hleaves, hflag]⟩
    | sqlite =>
        refine ⟨w.inTransaction || env.begin.isOk, fun _ => .inl rfl, fun hok => by simp [hok], ?_⟩
        simp [beginTransaction, h.isOpen, hleaves]
  obtain ⟨flag, hclear, hset, hbegin⟩ := hbegin
  have htrace : ∃ middle, (∀ e ∈ middle, IsQuiet e) ∧
      w.trace ++ [.began env.begin.isOk] = saves upload ++ middle :=
    quiet_append trivial ⟨[], by simp, by simp [h.trace]⟩
  rw [BoardHandler.withTransaction, hbegin]
  cases hok : env.begin.isOk with
  | false =>
      rw [hok] at htrace hclear
      refine ⟨fun hopen => ?_, fun hflag => ?_, upload, .inl (undone_discard htrace)⟩
      · simp [discard_isOpen, World.log] at hopen
      · change (discard upload _).inTransaction = true at hflag
        rw [discard_inTransaction] at hflag
        exact (hclear hflag).resolve_right Bool.false_ne_true
  | true =>
      rw [hok] at htrace
      have hflag := hset hok
      exact hnext _ ⟨hflag, rfl, fun _ hclear => absurd (hclear.symm.trans hflag) Bool.false_ne_true, htrace⟩

/-- The end of the transaction. -/
theorem Begun.withCommit {next : World → World × Reply} (h : Begun client env.rollback upload w)
    (hnext : ∀ w, Committed client upload w → Post client env (next w)) :
    Post client env (withCommit client env upload failure w next) := by
  obtain ⟨w', hcommit, htrace, hdone, hundone⟩ : ∃ w', commit client env.commit env.rollback w =
      (env.commit.isOk, w') ∧ w'.trace = w.trace ++ [.committed env.commit.isOk] ∧
        (env.commit.isOk = true → w'.isOpen = false ∧ w'.inTransaction = false) ∧
        (client = .pgsql → env.commit.isOk = false → w'.isOpen = true → env.rollback = .failed) := by
    have hleaves : env.commit.isOk = true → env.commit.leaves w.isOpen = false := by
      cases env.commit <;> simp [Answer.isOk, Answer.leaves]
    cases client with
    | mysql => exact ⟨_, rfl, rfl, fun hok => ⟨hleaves hok, rfl⟩, fun hpg => by cases hpg⟩
    | sqlite => exact ⟨_, rfl, rfl, fun hok => ⟨hleaves hok, by simp [World.log, hok]⟩, fun hpg => by cases hpg⟩
    | pgsql =>
        refine ⟨_, by rw [commit, if_pos h.flag], rfl, fun hok => ⟨?_, rfl⟩, fun _ hok hopen => ?_⟩
        · simp [World.log, hok, hleaves hok]
        · simp only [World.log, hok, Bool.false_eq_true, if_false] at hopen
          exact Answer.eq_failed hopen
  rw [BoardHandler.withCommit, hcommit]
  cases hok : env.commit.isOk with
  | false =>
      rw [hok] at htrace
      refine Pending.abort ⟨fun hpg _ => hundone hpg hok, ?_⟩
      rw [htrace]
      exact quiet_append rfl h.pending.trace
  | true =>
      rw [hok] at htrace
      obtain ⟨middle, hquiet, heq⟩ := h.pending.trace
      obtain ⟨hopen, hflag⟩ := hdone hok
      exact hnext _ ⟨hopen, fun hf => absurd (hflag.symm.trans hf) Bool.false_ne_true, middle, hquiet,
        by rw [htrace, heq]⟩

/-- A query within the transaction. -/
theorem Begun.withRecords {size : ℕ} {sql : Bytes} {overflow : String}
    {next : List (HashMap Bytes) → World × Reply} (h : Begun client env.rollback upload w)
    (hnext : ∀ rows, Post client env (next rows)) :
    Post client env (withRecords client env upload size sql overflow failure w next) :=
  .elim h.abort fun _ => .elim h.abort hnext

theorem foldl_deleted (paths : List Bytes) (w : World) :
    paths.foldl (fun w path => w.log (.deleted path)) w =
      { w with trace := w.trace ++ paths.map .deleted } := by
  induction paths generalizing w with
  | nil => simp
  | cons path paths ih =>
      rw [List.foldl_cons, ih]
      simp [World.log]

/-- Behind the commit, other files may be deleted. -/
theorem Committed.finish (h : Committed client upload w) {paths : List Bytes}
    (hpaths : ∀ p ∈ upload, p ∉ paths) :
    Post client env (paths.foldl (fun w path => w.log (.deleted path)) w, reply) := by
  obtain ⟨hopen, hflag, middle, hquiet, htrace⟩ := h
  rw [foldl_deleted]
  exact ⟨fun h => absurd (hopen.symm.trans h) Bool.false_ne_true, hflag, upload,
    .inr ⟨middle, paths, hquiet, hpaths, by simp [htrace]⟩⟩

end Rules

/-! ### The handlers -/

section Handlers

variable {D : Type} {client : Client} {maxUploadSize : ℕ} {env : Env D} {req : Request D} {w : World}

theorem insertAttachment_post {file : MultipartFile × Bytes} {postId : ℤ} {next : World × Reply}
    (hw : Begun client env.rollback (some file.2) w) (hnext : Post client env next) :
    Post client env (insertAttachment client env file postId w next) :=
  .elim hw.abort fun _ => .ite hnext hw.abort

theorem write_post (h : Idle client none w) : Post client env (write client maxUploadSize env req w) := by
  refine .ite h.refuse (.elim h.refuse fun multipart => .ite h.refuse (.elim h.refuse fun title =>
    .elim h.refuse fun content => h.withUpload fun file w hidle => hidle.withTransaction fun w hw => ?_))
  have hfinish : Post client env (withCommit client env (file.map Prod.snd) "Commit fail." w fun w =>
      (w, .sendJson 200 "success" "post_id" env.lastInsertId)) :=
    hw.withCommit fun w hcommitted => @Committed.finish D client env _ w _ hcommitted [] (by simp)
  refine .elim hw.abort fun mid => .ite hw.abort ?_
  cases file with
  | none => exact hfinish
  | some file => exact insertAttachment_post hw hfinish

theorem modifyRows_post {postId : ℕ} {title content oldPath : Bytes} {hasOldRow : Bool}
    {file : Option (MultipartFile × Bytes)} (hw : Begun client env.rollback (file.map Prod.snd) w) :
    Post client env (modifyRows client env postId title content file hasOldRow oldPath w) := by
  refine .elim hw.abort fun cond => ?_
  have hfinish : Post client env
      (withCommit client env (file.map Prod.snd) "DB commit failed." w fun w =>
        (if oldPath ≠ [] ∧ (file.map Prod.snd).any (oldPath ≠ ·) then w.log (.deleted oldPath) else w,
          .sendJson 200 "ok" "post_id" postId)) := by
    refine hw.withCommit fun w hcommitted => ?_
    split
    · rename_i hother
      -- the stored file is deleted only where it is another one than the new file
      refine @Committed.finish D client env (file.map Prod.snd) w _ hcommitted [oldPath] fun p hp => ?_
      have hne : oldPath ≠ p := by simpa [Option.mem_def.mp hp] using hother.2
      simpa using hne.symm
    · exact @Committed.finish D client env _ w _ hcommitted [] (by simp)
  refine .ite hw.abort ?_
  cases file with
  | none => exact hfinish
  | some file =>
      rw [Option.elim_some]
      exact .elim hw.abort fun pid => .ite hfinish hw.abort

theorem modify_post (h : Idle client none w) : Post client env (modify client maxUploadSize env req w) := by
  refine .ite h.refuse (.elim h.refuse fun multipart => .ite h.refuse (.elim h.refuse fun postId =>
    .elim h.refuse fun title => .elim h.refuse fun content => h.withUpload fun file w hidle =>
      hidle.withTransaction fun w hw => hw.withRecords fun posts => .ite hw.abort ?_))
  refine hw.withRecords fun rows => .elim (modifyRows_post hw) fun row => ?_
  exact .elim hw.abort fun oldPath => modifyRows_post hw

theorem remove_post (h : Idle client none w) : Post client env (remove client env req w) := by
  refine .ite h.refuse (.elim h.refuse fun postId => h.withTransaction fun w hw =>
    hw.withRecords fun posts => .ite hw.abort (hw.withRecords fun paths => ?_))
  refine .elim hw.abort fun sqlPost => .elim hw.abort fun sqlAttachments => .ite hw.abort ?_
  exact hw.withCommit fun w hcommitted => hcommitted.finish (by simp)

theorem commentWrite_post (h : Idle client none w) : Post client env (commentWrite client env req w) := by
  refine .ite h.refuse (.elim h.refuse fun postId => .elim h.refuse fun fields =>
    .elim h.refuse fun content => h.withTransaction fun w hw => hw.withRecords fun posts =>
      .ite hw.abort ?_)
  have hinsert : ∀ depth, Post client env
      (if [decimal postId, text "1", decimal depth, decimal fields.2.toNat].any (32 ≤ ·.length) then
        abort client env none (.sendText 500 "Buffer error.") w
      else insertComment client env postId fields.2.toNat depth content w) :=
    fun depth => .ite hw.abort (.ite hw.abort
      (hw.withCommit fun w hcommitted => @Committed.finish D client env _ w _ hcommitted [] (by simp)))
  refine .ite (hinsert 0) (hw.withRecords fun rows => .elim hw.abort fun row => ?_)
  exact .elim hw.abort fun parentDepth => .ite hw.abort (hinsert 1)

/-- **Every handler** ends with nothing changed or with everything committed. -/
theorem serve_ends {step : Step D} (hopen : w.isOpen = false) (hflag : FlagClear client w) :
    Ends client step.env.rollback (serve client maxUploadSize step { w with trace := [] }).1 := by
  have hidle : Idle client none { w with trace := [] } := ⟨hopen, hflag, rfl⟩
  cases hhandler : step.handler with
  | write => simpa only [serve, hhandler, Post] using write_post hidle
  | modify => simpa only [serve, hhandler, Post] using modify_post hidle
  | remove => simpa only [serve, hhandler, Post] using remove_post hidle
  | commentWrite => simpa only [serve, hhandler, Post] using commentWrite_post hidle

end Handlers

/-! ### The client of PostgreSQL

Its flag moves as that of the client with its lock and its connection. -/

section Refines

variable {T : Type} [DecidableEq T] {o : Pgsql.Oracle} {t : T} {c c' : Pgsql.Client T} {answer : Answer}

theorem pgsql_beginTransaction (isOpen : Bool) (h : Pgsql.beginTransaction o t c = some (answer.isOk, c')) :
    c'.inTransaction = (beginTransaction .pgsql answer ⟨c.inTransaction, isOpen, []⟩).2.inTransaction := by
  rcases Pgsql.beginTransaction_spec h with ⟨hok, hidle, hbegun, -⟩ | ⟨hok, hkeeps⟩
  · simp [beginTransaction, World.log, hidle, hbegun, hok]
  · rw [hkeeps.inTransaction]
    cases hflag : c.inTransaction <;> simp [beginTransaction, World.log, hok]

theorem pgsql_commit (isOpen : Bool) (undo : Answer) (h : Pgsql.commit o t c = some (answer.isOk, c')) :
    c'.inTransaction = (commit .pgsql answer undo ⟨c.inTransaction, isOpen, []⟩).2.inTransaction := by
  have hclear : (commit .pgsql answer undo ⟨c.inTransaction, isOpen, []⟩).2.inTransaction = false := by
    cases hflag : c.inTransaction <;> simp [commit, World.log]
  rw [hclear]
  rcases Pgsql.commit_spec h with ⟨-, hends⟩ | ⟨hidle, hkeeps⟩
  · exact hends.inTransaction
  · exact hkeeps.inTransaction.trans hidle

theorem pgsql_rollback (isOpen : Bool) (h : Pgsql.rollback o t c = some (answer.isOk, c')) :
    c'.inTransaction = (rollback .pgsql answer ⟨c.inTransaction, isOpen, []⟩).inTransaction := by
  have hclear : (rollback .pgsql answer ⟨c.inTransaction, isOpen, []⟩).inTransaction = false := by
    cases hflag : c.inTransaction <;> simp [rollback, World.log]
  rw [hclear]
  rcases Pgsql.rollback_spec h with ⟨-, hends⟩ | ⟨hidle, hkeeps⟩
  · exact hends.inTransaction
  · exact hkeeps.inTransaction.trans hidle

end Refines

/-! ### Runs -/

variable {D : Type}

/-- A run in which every `ROLLBACK` ends the transaction: one request leaves the database as the next one
needs it. -/
theorem run_atomic {client : Client} {maxUploadSize : ℕ} {steps : List (Step D)}
    (h : ∀ step ∈ steps, step.env.rollback ≠ .failed) {w : World} (hopen : w.isOpen = false)
    (hflag : FlagClear client w) : ∀ r ∈ run client maxUploadSize w steps, Atomic r.1 := by
  induction steps generalizing w with
  | nil => simp [run]
  | cons step steps ih =>
      obtain ⟨hstep, hsteps⟩ := List.forall_mem_cons.mp h
      have hends := @serve_ends D client maxUploadSize w step hopen hflag
      have hatomic := hends.atomic hstep
      exact List.forall_mem_cons.mpr ⟨hatomic, ih hsteps hatomic.closed hends.flag⟩

/-- The parameters of a path with the number 1. -/
def sampleParams : HashMap Bytes := (HashMap.new 16).put (text "id") (text "1")

theorem parsePositiveInt_sampleParams : parsePositiveInt (getStr (some sampleParams) "id") = some 1 := by
  decide +kernel

/-- The removal of a post, with answers that begin a transaction and let everything in it fail. -/
def failingStep (D : Type) (rollback : Answer) : Step D where
  handler := .remove
  req := ⟨.delete, some sampleParams, none, none, none⟩
  env := ⟨true, .ok, .failed, rollback, fun _ => false, fun _ => none, 0, fun _ => none, fun _ => 0⟩

theorem serve_failingStep (client : Client) (maxUploadSize : ℕ) (answer : Answer) :
    (serve client maxUploadSize (failingStep D answer) World.init).1 =
      rollback client answer ⟨true, true, [.began true]⟩ := by
  have hsql : snprintf 128 (postQuery 1) = some (postQuery 1) := by
    decide +kernel
  have hbegin : beginTransaction client .ok World.init = (true, ⟨true, true, [.began true]⟩) := by
    cases client <;> rfl
  simp only [serve, failingStep, remove, parsePositiveInt_sampleParams, Option.elim_some,
    withTransaction, hbegin, if_true, withRecords, hsql, Option.elim_none, Bool.not_true,
    Bool.false_eq_true, if_false]
  rfl

/-- **When every run is atomic.** The runs are those of all requests and all answers, where `mayFail` says
whether a `ROLLBACK` may fail on a connection that is there. Over every client they leave no transaction open
and keep files and rows together if and only if no `ROLLBACK` does. -/
theorem atomic_iff (D : Type) (client : Client) (mayFail : Bool) :
    (∀ (maxUploadSize : ℕ) (steps : List (Step D)),
      (∀ step ∈ steps, step.env.rollback ≠ .failed ∨ mayFail = true) →
        ∀ r ∈ run client maxUploadSize World.init steps, Atomic r.1) ↔
      mayFail = false := by
  constructor
  · intro h
    by_contra hmay
    have hatomic := h 0 [failingStep D .failed] (by simp [hmay]) _ (List.mem_singleton_self _)
    have hclosed := hatomic.closed
    rw [show ({ World.init with trace := [] } : World) = World.init from rfl, serve_failingStep] at hclosed
    cases client <;> cases hclosed
  · intro hmay maxUploadSize steps hsteps
    refine run_atomic (fun step hstep => ?_) rfl fun hflag => absurd hflag Bool.false_ne_true
    exact (hsteps step hstep).resolve_right (by simp [hmay])

/-- A `ROLLBACK` that fails leaves the transaction open, and the client of SQLite says so. -/
theorem sqlite_left_open :
    ∃ r ∈ run .sqlite 0 World.init [failingStep ℕ .failed],
      r.1.isOpen = true ∧ r.1.inTransaction = true ∧ ¬Atomic r.1 := by
  have hserve := serve_failingStep (D := ℕ) .sqlite 0 .failed
  have hopen : (serve .sqlite 0 (failingStep ℕ .failed) World.init).1.isOpen = true := by
    rw [hserve]
    rfl
  refine ⟨_, List.mem_singleton_self _, hopen, ?_, fun hatomic => ?_⟩
  · show (serve .sqlite 0 (failingStep ℕ .failed) World.init).1.inTransaction = true
    rw [hserve]
    rfl
  · exact absurd (hatomic.closed.symm.trans hopen) Bool.false_ne_true

end BoardHandler
