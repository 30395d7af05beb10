import LibCore.Cron

/-!
# The Worker of the Cron Scheduler

`cron_scheduler.c` beyond the parser: the table of jobs with `addCron` and `removeCron`, and
`cron_worker`, which looks at the clock five times a second and starts a thread for every job that
matches. The worker does not remember the time, only `tm_sec`: a second is new to it when its number
within the minute differs from that of the last poll. Removing a job moves the last one into its place.

What this amounts to depends on the clock. As long as it does not go back and is polled once a minute at
least, a second is worked off exactly once, at its first poll, with the jobs that are registered then;
and a clock that is polled every second leaves none out.

Threads and the memory for them are there when they are asked for. `C` stands for a callback with its
argument.

## Main definitions

* `Job`, `Table`: the jobs with their callbacks, and the operations on them.
* `Worker`, `Worker.poll`, `Worker.run`: the worker, a round of its loop, and all that happens to it.
* `registered`: what is registered, as a map from names.

## Main results

* `run_poll`: a poll works off a second when it is the first one in it, and never else.
* `Table.removeCron_perm`: removing takes one job out and leaves the others.
* `starts_exactly_once`: the threads that are started in a second.
-/

open CString

namespace Cron

variable {C : Type}

/-! ### The table -/

/-- `CronJob`: a registered job and its callback. -/
structure Job (C : Type) extends Entry where
  cb : C

/-- The jobs of a `CronScheduler`, with their callbacks. -/
structure Table (C : Type) where
  jobs : List (Job C)
  jobCapacity : ℕ

/-- The table without the callbacks. -/
def Table.forget (self : Table C) : CronScheduler := ⟨self.jobs.map Job.toEntry, self.jobCapacity⟩

/-- `CronScheduler_addCron`; `grown` says whether `realloc` succeeds. -/
def Table.addCron (self : Table C) (grown : Bool) (name expr : Bytes) (cb : C) : Bool × Table C :=
  let full := self.jobs.length ≥ self.jobCapacity
  if full ∧ !grown then (false, self)
  else
    let self := if full then { self with jobCapacity := self.jobCapacity * 2 } else self
    match parseCronExpr expr with
    | none => (false, self)
    | some job => (true, { self with jobs := self.jobs ++ [⟨⟨name.take 63, job⟩, cb⟩] })

/-- `CronScheduler_removeCron`: the last job goes to the place of the first one with the name. -/
def Table.removeCron (self : Table C) (name : Bytes) : Bool × Table C :=
  match self.jobs.findIdx? (fun job => job.name = name), self.jobs.getLast? with
  | some i, some last => (true, { self with jobs := (self.jobs.set i last).dropLast })
  | _, _ => (false, self)

/-- `new_CronScheduler`. -/
def Table.new : Table C := ⟨[], 16⟩

/-- The callbacks make no difference to the table. -/
theorem Table.forget_addCron (self : Table C) (grown : Bool) (name expr : Bytes) (cb : C) :
    (self.addCron grown name expr cb).1 = (Cron.addCron self.forget grown name expr).1 ∧
      (self.addCron grown name expr cb).2.forget = (Cron.addCron self.forget grown name expr).2 := by
  simp only [Table.addCron, Cron.addCron, Table.forget, List.length_map]
  cases parseCronExpr expr <;> split_ifs <;> simp

/-- Filling a hole with the last element leaves the others. -/
theorem set_dropLast_perm {α : Type} {xs : List α} {i : ℕ} {x last : α} (hi : xs[i]? = some x)
    (hlast : xs.getLast? = some last) : (x :: (xs.set i last).dropLast).Perm xs := by
  obtain ⟨hlt, rfl⟩ := List.getElem?_eq_some_iff.mp hi
  obtain ⟨front, rfl⟩ : ∃ front, xs = front ++ [last] :=
    ⟨xs.dropLast, (List.dropLast_append_getLast? last hlast).symm⟩
  rcases Nat.lt_or_ge i front.length with hfront | hend
  · have hset : ((front ++ [last]).set i last).dropLast = front.set i last := by
      rw [List.set_append_left _ _ hfront, List.dropLast_concat]
    rw [hset, List.getElem_append_left hfront]
    calc (front[i] :: front.set i last).Perm (front[i] :: last :: front.eraseIdx i) :=
          (List.set_perm_cons_eraseIdx hfront last).cons _
      List.Perm _ (last :: front[i] :: front.eraseIdx i) := List.Perm.swap _ _ _
      List.Perm _ (last :: front) := (List.getElem_cons_eraseIdx_perm hfront).cons _
      List.Perm _ (front ++ [last]) := (List.perm_append_singleton last front).symm
  · obtain rfl : i = front.length := by
      rw [List.length_append, List.length_singleton] at hlt
      omega
    simpa using (List.perm_append_singleton last front).symm

/-- **Removing takes one job out**, whatever its place was, and there was none of the name if it fails. -/
theorem Table.removeCron_perm (self : Table C) (name : Bytes) :
    (∃ job ∈ self.jobs, job.name = name ∧ (self.removeCron name).1 = true ∧
        (job :: (self.removeCron name).2.jobs).Perm self.jobs) ∨
      ((∀ job ∈ self.jobs, job.name ≠ name) ∧ self.removeCron name = (false, self)) := by
  rw [Table.removeCron]
  cases hfind : self.jobs.findIdx? (fun job => job.name = name) with
  | none =>
      refine .inr ⟨fun job hjob => ?_, by simp⟩
      simpa using List.findIdx?_eq_none_iff.mp hfind job hjob
  | some i =>
      obtain ⟨hlt, hname, -⟩ := List.findIdx?_eq_some_iff_getElem.mp hfind
      obtain ⟨last, hlast⟩ : ∃ last, self.jobs.getLast? = some last :=
        Option.isSome_iff_exists.mp (List.getLast?_isSome.mpr (List.ne_nil_of_length_pos (by omega)))
      refine .inl ⟨self.jobs[i], List.getElem_mem hlt, by simpa using hname, ?_⟩
      rw [hlast]
      exact ⟨rfl, set_dropLast_perm (List.getElem?_eq_getElem hlt) hlast⟩

/-! ### The worker -/

/-- The jobs that match a time. -/
def Table.matching (self : Table C) (t : Tm) : List (Job C) := self.jobs.filter fun job =>
    cronMatches job.job t

/-- The table, the variable `last_sec`, and the threads that were started: when, and for which callback. -/
structure Worker (C : Type) where
  table : Table C
  lastSec : ℤ
  started : List (ℕ × C)

/-- What happens to a scheduler: a round of the loop of its worker, which reads the clock, and calls of its
two operations. -/
inductive Event (C : Type) where
  | poll (now : ℕ)
  | add (name expr : Bytes) (cb : C)
  | remove (name : Bytes)

variable (localtime : ℕ → Tm)

/-- A round of the loop of `cron_worker`. -/
def Worker.poll (now : ℕ) (w : Worker C) : Worker C :=
  let t := localtime now
  if (t.tmSec : ℤ) ≠ w.lastSec then
    { w with
      lastSec := t.tmSec
      started := w.started ++ (w.table.matching t).map fun job => (now, job.cb) }
  else w

/-- One thing happens. -/
def Worker.exec (w : Worker C) : Event C → Worker C
  | .poll now => w.poll localtime now
  | .add name expr cb => { w with table := (w.table.addCron true name expr cb).2 }
  | .remove name => { w with table := (w.table.removeCron name).2 }

/-- Everything from the creation of the scheduler on. -/
def Worker.run (es : List (Event C)) : Worker C := es.foldl (Worker.exec localtime) ⟨Table.new, -1, []⟩

/-- The times at which the worker looks at the clock. -/
def polls (es : List (Event C)) : List ℕ :=
  es.filterMap fun
    | .poll now => some now
    | _ => none

/-- The clock does not go back, and a minute does not pass between two polls. -/
def Steady (es : List (Event C)) : Prop := (polls es).IsChain fun p q => p ≤ q ∧ q < p + 60

variable {localtime}
variable {es : List (Event C)} {t : ℕ}

theorem run_concat (es : List (Event C)) (e : Event C) :
    Worker.run localtime (es ++ [e]) = (Worker.run localtime es).exec localtime e := by
  rw [Worker.run, List.foldl_append]
  rfl

theorem polls_append (es es' : List (Event C)) : polls (es ++ es') = polls es ++ polls es' :=
  List.filterMap_append

theorem mem_polls : t ∈ polls es ↔ Event.poll t ∈ es := by
  rw [polls, List.mem_filterMap]
  constructor
  · rintro ⟨e, he, heq⟩
    cases e with
    | poll now => exact Option.some.inj heq ▸ he
    | add name expr cb => cases heq
    | remove name => cases heq
  · exact fun h => ⟨_, h, rfl⟩

theorem Steady.of_append {es' : List (Event C)} (h : Steady (es ++ es')) : Steady es := by
  rw [Steady, polls_append] at h
  exact h.left_of_append

/-- The variable `last_sec` is the number of the last poll within its minute. -/
theorem lastSec_run (hsec : ∀ t, (localtime t).tmSec = t % 60) (es : List (Event C)) :
    (Worker.run localtime es).lastSec = (polls es).getLast?.elim (-1) fun now => ((now % 60 : ℕ) : ℤ) := by
  induction es using List.reverseRecOn with
  | nil => rfl
  | append_singleton es e ih =>
      rw [run_concat, polls_append]
      cases e with
      | poll now =>
          have hlast : (polls es ++ polls [Event.poll now (C := C)]).getLast? = some now := by
            simp [polls]
          rw [hlast, Option.elim_some, Worker.exec, Worker.poll, hsec]
          split_ifs with hne
          · rfl
          · rw [not_not] at hne
            exact hne.symm
      | add name expr cb => simpa [polls, Worker.exec] using ih
      | remove name => simpa [polls, Worker.exec] using ih

/-- On a steady clock a time that was polled before is the last one that was polled. -/
theorem Steady.getLast?_of_mem (h : Steady (es ++ [.poll t])) (ht : t ∈ polls es) :
    (polls es).getLast? = some t := by
  rw [Steady, polls_append] at h
  obtain ⟨front, last, hlast⟩ := (List.eq_nil_or_concat (polls es)).resolve_left (List.ne_nil_of_mem ht)
  rw [List.concat_eq_append] at hlast
  have hsorted : (polls es ++ [t]).Pairwise (· ≤ ·) :=
    List.isChain_iff_pairwise.mp (h.imp fun _ _ hpq => hpq.1)
  rw [hlast, List.append_assoc] at hsorted
  have hle : last ≤ t := by
    have hpair := (List.pairwise_append.mp hsorted).2.1
    simpa using hpair
  have hge : t ≤ last := by
    rw [hlast, List.mem_append, List.mem_singleton] at ht
    rcases ht with ht | rfl
    · exact (List.pairwise_append.mp hsorted).2.2 t ht last (by simp)
    · exact le_rfl
  rw [hlast, List.getLast?_concat, le_antisymm hle hge]

/-- **A poll works off its second when it is the first in it**, and does nothing else. -/
theorem run_poll (hsec : ∀ t, (localtime t).tmSec = t % 60) (h : Steady (es ++ [.poll t])) :
    (Worker.run localtime (es ++ [.poll t])).started = (Worker.run localtime es).started ++
      if t ∈ polls es then []
      else ((Worker.run localtime es).table.matching (localtime t)).map fun job => (t, job.cb) := by
  have hlast := lastSec_run hsec es
  rw [run_concat, Worker.exec, Worker.poll, hsec, hlast]
  by_cases hmem : t ∈ polls es
  · rw [h.getLast?_of_mem hmem, if_pos hmem]
    simp
  · -- another second of the last minute has another number
    have hne : ((t % 60 : ℕ) : ℤ) ≠ (polls es).getLast?.elim (-1) fun now => ((now % 60 : ℕ) : ℤ) := by
      cases hl : (polls es).getLast? with
      | none =>
          rw [Option.elim_none]
          omega
      | some last =>
          rw [Steady, polls_append] at h
          have hstep := (List.isChain_append.mp h).2.2 last hl t (by simp [polls])
          have hlt : last ≠ t := by
            rintro rfl
            exact hmem (List.mem_of_getLast? hl)
          rw [Option.elim_some]
          omega
    rw [if_pos hne, if_neg hmem]

/-! ### What is registered -/

/-- What an event makes of the jobs that are registered under their names. -/
def learn (f : Bytes → Option (CronJob × C)) : Event C → Bytes → Option (CronJob × C)
  | .poll _ => f
  | .add name expr cb =>
      match parseCronExpr expr with
      | none => f
      | some job => Function.update f name (some (job, cb))
  | .remove name => Function.update f name none

/-- The jobs that are registered, by their names. -/
def registered (es : List (Event C)) : Bytes → Option (CronJob × C) := es.foldl learn fun _ => none

/-- A name is given to one job at a time, and fits its buffer. -/
def Fresh (es : List (Event C)) : Prop :=
  ∀ before name expr cb after, es = before ++ .add name expr cb :: after →
    name.length < 64 ∧ registered before name = none

/-- The table holds the jobs of a map, each under its name. -/
structure Shows (table : Table C) (f : Bytes → Option (CronJob × C)) : Prop where
  nodup : (table.jobs.map fun job => job.name).Nodup
  mem_iff : ∀ name job cb, (⟨⟨name, job⟩, cb⟩ : Job C) ∈ table.jobs ↔ f name = some (job, cb)

theorem registered_concat (es : List (Event C)) (e : Event C) :
    registered (es ++ [e]) = learn (registered es) e := by
  rw [registered, List.foldl_append]
  rfl

theorem Fresh.of_append {es' : List (Event C)} (h : Fresh (es ++ es')) : Fresh es := by
  intro before name expr cb after heq
  exact h before name expr cb (after ++ es') (by rw [heq, List.append_assoc, List.cons_append])

theorem Table.jobs_addCron (self : Table C) (name expr : Bytes) (cb : C) :
    (self.addCron true name expr cb).2.jobs = self.jobs ++
      ((parseCronExpr expr).map fun job => (⟨⟨name.take 63, job⟩, cb⟩ : Job C)).toList := by
  simp only [Table.addCron]
  cases parseCronExpr expr <;> split_ifs <;> simp_all

variable {self : Table C} {f : Bytes → Option (CronJob × C)}

theorem Shows.add (h : Shows self f) {name expr : Bytes} {cb : C} (hlt : name.length < 64)
    (hfree : f name = none) : Shows (self.addCron true name expr cb).2 (learn f (.add name expr cb)) := by
  have hjobs := self.jobs_addCron name expr cb
  rw [learn]
  cases hparse : parseCronExpr expr with
  | none =>
      rw [hparse, Option.map_none, Option.toList_none, List.append_nil] at hjobs
      exact ⟨hjobs ▸ h.nodup, hjobs ▸ h.mem_iff⟩
  | some job =>
      rw [hparse, Option.map_some, Option.toList_some, List.take_of_length_le (by omega)] at hjobs
      dsimp only
      constructor
      · rw [hjobs, List.map_append, List.map_singleton, List.nodup_append]
        refine ⟨h.nodup, by simp, ?_⟩
        rintro name' hname' _ hmem rfl
        obtain ⟨⟨⟨_, job'⟩, cb'⟩, hjob', rfl⟩ := List.mem_map.mp hname'
        obtain rfl := List.mem_singleton.mp hmem
        have hsome := (h.mem_iff _ _ _).mp hjob'
        rw [hfree] at hsome
        cases hsome
      · intro name' job' cb'
        rw [hjobs, List.mem_append, List.mem_singleton, h.mem_iff]
        by_cases hname : name' = name
        · subst hname
          rw [Function.update_self, hfree]
          constructor
          · rintro (hnone | heq)
            · cases hnone
            · cases heq
              rfl
          · rintro heq
            obtain ⟨rfl, rfl⟩ := Prod.mk.inj (Option.some.inj heq)
            exact .inr rfl
        · rw [Function.update_of_ne hname]
          refine or_iff_left fun heq => hname ?_
          cases heq
          rfl

theorem Shows.remove (h : Shows self f) (name : Bytes) :
    Shows (self.removeCron name).2 (learn f (.remove name)) := by
  rw [learn]
  rcases self.removeCron_perm name with ⟨job, hjob, rfl, -, hperm⟩ | ⟨hnone, heq⟩
  · have hnodup := (hperm.map fun job => job.name).nodup_iff.mpr h.nodup
    rw [List.map_cons, List.nodup_cons] at hnodup
    refine ⟨hnodup.2, fun name' job' cb' => ?_⟩
    by_cases hname : name' = job.name
    · subst hname
      rw [Function.update_self]
      refine iff_of_false (fun hmem => hnodup.1 ?_) (by simp)
      exact List.mem_map.mpr ⟨_, hmem, rfl⟩
    · rw [Function.update_of_ne hname, ← h.mem_iff, ← hperm.mem_iff, List.mem_cons]
      refine (or_iff_right fun heq => hname ?_).symm
      rw [← heq]
  · rw [heq]
    refine ⟨h.nodup, fun name' job' cb' => ?_⟩
    by_cases hname : name' = name
    · subst hname
      rw [Function.update_self]
      exact iff_of_false (fun hmem => hnone _ hmem rfl) (by simp)
    · rw [Function.update_of_ne hname]
      exact h.mem_iff _ _ _

/-- **The table holds what is registered.** -/
theorem shows_run (h : Fresh es) : Shows (Worker.run localtime es).table (registered es) := by
  induction es using List.reverseRecOn with
  | nil => exact ⟨List.nodup_nil, fun _ _ _ => by simp [Worker.run, Table.new, registered]⟩
  | append_singleton es e ih =>
      have hes := ih h.of_append
      rw [run_concat, registered_concat]
      cases e with
      | poll now =>
          rw [Worker.exec, Worker.poll]
          split_ifs <;> exact hes
      | add name expr cb =>
          obtain ⟨hlt, hfree⟩ := h es name expr cb [] rfl
          exact hes.add hlt hfree
      | remove name => exact hes.remove name

/-! ### What is started -/

/-- Only the polls of a time start threads at it, and only the first one. -/
theorem started_concat (hsec : ∀ t, (localtime t).tmSec = t % 60) {e : Event C} (h : Steady (es ++ [e]))
    (he : e ≠ .poll t ∨ t ∈ polls es) :
    (Worker.run localtime (es ++ [e])).started.filter (fun s => s.1 = t) =
      (Worker.run localtime es).started.filter fun s => s.1 = t := by
  cases e with
  | poll now =>
      rw [run_poll hsec h, List.filter_append]
      split_ifs with hmem
      · rw [List.filter_nil, List.append_nil]
      · have hne : now ≠ t := by
          rintro rfl
          exact he.elim (fun hne => hne rfl) fun hin => hmem hin
        rw [List.append_right_eq_self, List.filter_eq_nil_iff]
        rintro _ hs
        obtain ⟨job, -, rfl⟩ := List.mem_map.mp hs
        simpa using hne
  | add name expr cb => rw [run_concat, Worker.exec]
  | remove name => rw [run_concat, Worker.exec]

theorem started_of_notMem (hsec : ∀ t, (localtime t).tmSec = t % 60) (h : Steady es) (ht : t ∉ polls es) :
    (Worker.run localtime es).started.filter (fun s => s.1 = t) = [] := by
  induction es using List.reverseRecOn with
  | nil => rfl
  | append_singleton es e ih =>
      rw [polls_append, List.mem_append, not_or] at ht
      rw [started_concat hsec h (.inl fun heq => ht.2 (by simp [heq, polls])), ih h.of_append ht.1]

theorem started_of_first (hsec : ∀ t, (localtime t).tmSec = t % 60) {before after : List (Event C)}
    (h : Steady (before ++ .poll t :: after)) (ht : t ∉ polls before) :
    (Worker.run localtime (before ++ .poll t :: after)).started.filter (fun s => s.1 = t) =
      ((Worker.run localtime before).table.matching (localtime t)).map fun job => (t, job.cb) := by
  induction after using List.reverseRecOn with
  | nil =>
      rw [run_poll hsec h, List.filter_append, started_of_notMem hsec h.of_append ht, List.nil_append,
        if_neg ht,
        List.filter_eq_self]
      simp
  | append_singleton after e ih =>
      rw [← List.cons_append, ← List.append_assoc] at h ⊢
      rw [started_concat hsec h (.inr (by simp [mem_polls])), ih h.of_append]

/-- A clock that is polled every second leaves none out. -/
theorem mem_of_isChain {ts : List ℕ} (hsorted : ts.Pairwise (· ≤ ·)) (h : ts.IsChain fun p q => q ≤ p + 1)
    {a b : ℕ} (ha : a ∈ ts) (hb : b ∈ ts) (hat : a ≤ t) (htb : t ≤ b) : t ∈ ts := by
  induction ts generalizing a with
  | nil => simp at ha
  | cons x ts ih =>
      by_cases htx : t = x
      · simp [htx]
      obtain ⟨hle, hsorted⟩ := List.pairwise_cons.mp hsorted
      have hx : x ≤ a := by
        rcases List.mem_cons.mp ha with rfl | ha
        · exact le_rfl
        · exact hle a ha
      have hb' : b ∈ ts := (List.mem_cons.mp hb).resolve_left (by omega)
      cases ts with
      | nil => simp at hb'
      | cons y ts =>
          -- the next poll is at most a second later, and so still at `t` or before
          obtain ⟨hstep, htail⟩ := List.isChain_cons_cons.mp h
          exact List.mem_cons_of_mem _ (ih hsorted htail List.mem_cons_self hb' (by omega))

/-- The jobs of a table that match, as the entries of the map that it shows. -/
theorem Shows.matching (h : Shows self f) (tm : Tm) :
    ∃ names : List Bytes, names.Nodup ∧
      (∀ name, name ∈ names ↔ ∃ job cb, f name = some (job, cb) ∧ cronMatches job tm) ∧
      (self.matching tm).map (fun job => (t, job.cb)) =
        names.filterMap fun name => (f name).map fun entry => (t, entry.2) := by
  refine ⟨(self.matching tm).map fun job => job.name, ?_, fun name => ?_, ?_⟩
  · exact h.nodup.sublist (List.filter_sublist.map _)
  · rw [List.mem_map]
    constructor
    · rintro ⟨⟨⟨_, job⟩, cb⟩, hjob, rfl⟩
      obtain ⟨hmem, hmatch⟩ := List.mem_filter.mp hjob
      exact ⟨job, cb, (h.mem_iff _ _ _).mp hmem, hmatch⟩
    · rintro ⟨job, cb, hf, hmatch⟩
      exact ⟨⟨⟨name, job⟩, cb⟩, List.mem_filter.mpr ⟨(h.mem_iff _ _ _).mpr hf, hmatch⟩, rfl⟩
  · rw [List.filterMap_map, ← List.filterMap_eq_map]
    refine List.filterMap_congr fun job hjob => ?_
    have hf := (h.mem_iff job.name job.job job.cb).mp (List.mem_filter.mp hjob).1
    simp [hf]

/-- **What is started in a second.** Nothing in a second in which the clock is not read; in one in which it
is, however often, one thread for every job that is registered at the first time and matches. And a worker
that is never late by a second leaves none out. -/
theorem starts_exactly_once (hsec : ∀ t, (localtime t).tmSec = t % 60) (h : Steady es) (hfresh : Fresh es) :
    (∀ t ∉ polls es, ∀ cb, (t, cb) ∉ (Worker.run localtime es).started) ∧
    (∀ before t after, es = before ++ .poll t :: after → t ∉ polls before →
      ∃ names : List Bytes, names.Nodup ∧
        (∀ name, name ∈ names ↔ ∃ job cb, registered before name = some (job, cb) ∧
          cronMatches job (localtime t)) ∧
        (Worker.run localtime es).started.filter (fun s => s.1 = t) =
          names.filterMap fun name => (registered before name).map fun entry => (t, entry.2)) ∧
    ((polls es).IsChain (fun p q => q ≤ p + 1) →
      ∀ a ∈ polls es, ∀ b ∈ polls es, ∀ t, a ≤ t → t ≤ b → t ∈ polls es) := by
  refine ⟨fun t ht cb hstart => ?_, ?_, fun hchain a ha b hb t hat htb => ?_⟩
  · have hfilter := started_of_notMem hsec h ht
    rw [List.filter_eq_nil_iff] at hfilter
    exact hfilter _ hstart (by simp)
  · rintro before t after rfl ht
    rw [started_of_first hsec h ht]
    exact (shows_run hfresh.of_append).matching _
  · have hsorted := List.isChain_iff_pairwise.mp (h.imp fun _ _ hpq => hpq.1)
    exact mem_of_isChain hsorted hchain ha hb hat htb

/-- A job for every second, and a clock that is read twice in one second and once in the next. -/
theorem starts_exactly_once_sample :
    ∃ localtime : ℕ → Tm, (∀ t, (localtime t).tmSec = t % 60) ∧
      let add : Event ℕ := .add [0x62] (ascii ['*', ' ', '*', ' ', '*', ' ', '*', ' ', '*', ' ', '*']) 7
      ∃ names : List Bytes, names.Nodup ∧
        (∀ name, name ∈ names ↔ ∃ job cb, registered [add] name = some (job, cb) ∧
          cronMatches job (localtime 10)) ∧
        (Worker.run localtime [add, .poll 10, .poll 10, .poll 11]).started.filter (fun s => s.1 = 10) =
          names.filterMap fun name => (registered [add] name).map fun entry => (10, entry.2) := by
  let localtime : ℕ → Tm := fun t =>
    ⟨t % 60, 0, 0, 1, 0, 4, by omega, by omega, by omega, by omega, by omega, by omega⟩
  refine ⟨localtime, fun _ => rfl, ?_⟩
  intro add
  refine (starts_exactly_once (fun _ => rfl) (by simp [Steady, polls, add]) ?_).2.1 [add] 10
    [.poll 10, .poll 11] rfl
    (by simp [polls, add])
  intro before name expr cb after heq
  cases before with
  | nil =>
      obtain ⟨hadd, -⟩ := List.cons.inj heq
      obtain ⟨rfl, rfl, rfl⟩ := Event.add.inj hadd
      exact ⟨by decide, rfl⟩
  | cons e before =>
      have hmem : Event.add name expr cb ∈ [.poll 10, .poll 10, .poll 11] := by
        rw [(List.cons.inj heq).2]
        simp
      simp at hmem

end Cron
