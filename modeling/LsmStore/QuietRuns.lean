import LsmStore.Effects
import LsmStore.Runs
import LsmStore.Twins

/-!
# Reads leave no trace

A read changes the block cache and two counters, and nothing that any other operation looks
at.  So a run goes on as if its reads had not been made, however its file operations fail:
every other command returns what it would have returned, and the directory and the engine end
up the same, but for the cache and the counters (`reads_leave_no_trace`).

The two databases are related by `Unread`: the first one has not made the reads.
-/

set_option autoImplicit false

namespace LsmStore

open Foundation

variable {fmt : TableFormat}

/-- The tables a read has looked into so far, in their filter or in their blocks. -/
def Engine.searched (engine : Engine fmt) : Nat := engine.bloomSkips + engine.sstableReads

/-- How many tables may hold a key, going by their ranges. -/
def candidates (key : Key) (tables : List (SsTable fmt)) : Nat :=
  tables.countP fun table => fmt.containsRange table.handle key

section Candidates

variable {key : Key} {table : SsTable fmt} {rest : List (SsTable fmt)}

theorem candidates_cons_of_pos (inside : fmt.containsRange table.handle key = true) :
    candidates key (table :: rest) = candidates key rest + 1 :=
  List.countP_cons_of_pos inside

theorem candidates_cons_of_neg (outside : ¬ fmt.containsRange table.handle key = true) :
    candidates key (table :: rest) = candidates key rest :=
  List.countP_cons_of_neg outside

end Candidates

/-- The second database is the first one after some reads. -/
inductive Unread : Db fmt → Db fmt → Prop
  | intro {disk : Disk fmt} {engine : Engine fmt} {faults : List Verdict} (cache : fmt.Cache)
      (skips reads : Nat) :
      Unread ⟨disk, engine, faults⟩
        ⟨disk, { engine with cache := cache, bloomSkips := skips, sstableReads := reads }, faults⟩

namespace Unread

variable {db twin : Db fmt}

theorem refl (db : Db fmt) : Unread db db :=
  .intro db.engine.cache db.engine.bloomSkips db.engine.sstableReads

theorem trans {third : Db fmt} (first : Unread db twin) (second : Unread twin third) :
    Unread db third := by
  cases first with
  | intro => cases second with
    | intro cache skips reads => exact .intro cache skips reads

/-! ## Reads -/

/-- The second database is the first one after some reads that looked into at most so many
tables. -/
def Looked (count : Nat) (db next : Db fmt) : Prop :=
  Unread db next ∧ next.engine.searched ≤ db.engine.searched + count

/-- How a read may end: with a value or with an error, and with no more than the cache and
two counters changed. -/
def Ends {α : Type} (count : Nat) (action : Action fmt α) (from_ at_ : Db fmt) : Prop :=
  Yields action at_ (fun _ next => Looked count from_ next)
    (fun failure next => (∃ cause, failure = .error cause) ∧ Looked count from_ next)

theorem looked_of_refl (count : Nat) (db : Db fmt) : Looked count db db :=
  ⟨refl db, Nat.le_add_right _ _⟩

theorem Looked.further {count : Nat} {next : Db fmt} (first : Looked 1 db twin)
    (second : Looked count twin next) : Looked (count + 1) db next := by
  refine ⟨first.1.trans second.1, ?_⟩
  have once := first.2
  have more := second.2
  omega

theorem Ends.after {α : Type} {count : Nat} {action : Action fmt α} {from_ at_ : Db fmt}
    (ends : Ends count action at_ at_) (first : Looked 1 from_ at_) :
    Ends (count + 1) action from_ at_ :=
  ends.imp (fun _ _ => first.further) (fun _ _ failed => ⟨failed.1, first.further failed.2⟩)

/-- A search looks into a table once, and only if the key is in its range. -/
theorem searchTables (key : Key) (tables : List (SsTable fmt)) (db : Db fmt) :
    Ends (candidates key tables) (searchTables key tables) db db := by
  induction tables generalizing db with
  | nil => exact looked_of_refl _ db
  | cons table rest ih =>
      unfold Ends Yields
      rw [LsmStore.searchTables]
      by_cases outside : (!fmt.containsRange table.handle key) = true
      · rw [if_pos outside, candidates_cons_of_neg (by simpa using outside)]
        exact ih db
      · rw [if_neg outside, candidates_cons_of_pos (by simpa using outside)]
        by_cases skipped : (!fmt.mightContain table.handle key) = true
        · rw [if_pos skipped]
          exact (ih _).after ⟨.intro _ _ _, (Nat.add_right_comm _ _ _).le⟩
        · rw [if_neg skipped]
          dsimp only
          have looked : ∀ cache, Looked 1 db { db with engine := { db.engine with
              sstableReads := db.engine.sstableReads + 1, cache := cache } } :=
            fun cache => ⟨.intro _ _ _, le_rfl⟩
          cases (fmt.get table.id table.handle (db.disk.sst table.id) key db.engine.cache).1 with
          | error cause => exact ⟨⟨cause, rfl⟩, (looked _).further (looked_of_refl _ _)⟩
          | ok found =>
              cases found with
              | none => exact (ih _).after (looked _)
              | some entry => cases entry <;> exact (looked _).further (looked_of_refl _ _)

/-- **A read leaves the database as it was, but for the cache and two counters.** -/
theorem get (key : Key) (db : Db fmt) :
    Ends (candidates key db.engine.version.tablesNewestFirst) (get key) db db := by
  have stays := looked_of_refl (candidates key db.engine.version.tablesNewestFirst) db
  unfold Ends Yields LsmStore.get
  cases validateKey key with
  | error cause => exact ⟨⟨cause, rfl⟩, stays⟩
  | ok _ =>
      cases db.engine.memtable.get key with
      | some entry => cases entry <;> exact stays
      | none =>
          cases db.engine.immutable.bind (·.get key) with
          | some entry => cases entry <;> exact stays
          | none => exact searchTables key _ db

theorem execute_of_read {key : Key} {value : Option Bytes} {next : Db fmt}
    (read : LsmStore.get key db = .ok value next) : execute (.get key) db = .ok next := by
  refine execute_of_ok ?_
  change EStateM.map (Function.const _ ()) (LsmStore.get key) db = .ok () next
  rw [EStateM.map, read]

theorem execute_of_failed_read {key : Key} {cause : Error} {next : Db fmt}
    (failed : LsmStore.get key db = .error (.error cause) next) :
    execute (.get key) db = .ok next := by
  have acts : (Command.get key).action db = .error (.error cause) next := by
    change EStateM.map (Function.const _ ()) (LsmStore.get key) db = _
    rw [EStateM.map, failed]
  unfold execute
  rw [acts]
  exact if_neg (by simp)

theorem execute_get (key : Key) (db : Db fmt) :
    ∃ next, execute (.get key) db = .ok next ∧ Unread db next := by
  have ends := get key db
  cases read : LsmStore.get key db with
  | ok value next => exact ⟨next, execute_of_read read, (ends.ok read).1⟩
  | error failure next =>
      obtain ⟨⟨cause, rfl⟩, looked⟩ := ends.error read
      exact ⟨next, execute_of_failed_read read, looked.1⟩

/-! ## Other actions -/

/-- The notes that a read leaves alone are the same. -/
def SameRequests (notes notes' : Notes fmt) : Prop :=
  notes'.lastError = notes.lastError ∧ notes'.inbox = notes.inbox ∧ notes'.running = notes.running

theorem unread_eq_apart : @Unread fmt = Apart SameRequests := by
  funext db twin
  refine propext ⟨?_, ?_⟩
  · rintro ⟨cache, skips, reads⟩
    rename_i engine _
    exact .intro ⟨cache, engine.lastError, skips, reads, engine.inbox, engine.running⟩
      ⟨rfl, rfl, rfl⟩
  · rintro ⟨⟨cache, lastError, skips, reads, inbox, running⟩, sameError, sameInbox, sameRunning⟩
    dsimp only at sameError sameInbox sameRunning
    subst sameError sameInbox sameRunning
    exact .intro cache skips reads

theorem requests_keep (notes notes' : Notes fmt) (same : SameRequests notes notes') :
    SameRequests notes.requested notes'.requested := by
  obtain ⟨sameError, sameInbox, sameRunning⟩ := same
  unfold Notes.requested
  by_cases alive : notes.running = true
  · rw [if_pos alive, if_pos (sameRunning.trans alive)]
    exact ⟨sameError, congrArg (· + 1) sameInbox, sameRunning⟩
  · rw [if_neg alive, if_neg (by rw [sameRunning]; exact alive)]
    exact ⟨sameError, sameInbox, sameRunning⟩

/-- **What is not a read does not see the reads.** -/
theorem twins : Twins (@Unread fmt) := by
  rw [unread_eq_apart]
  exact Apart.twins

theorem maybeRequestCompaction :
    InStep Unread (maybeRequestCompaction : Action fmt Unit) maybeRequestCompaction := by
  rw [unread_eq_apart]
  exact Apart.maybeRequestCompaction requests_keep

theorem compactOnce : InStep Unread (compactOnce : Action fmt Unit) compactOnce := by
  rw [unread_eq_apart]
  exact Apart.compactOnce

theorem workerPass : InStep Unread (workerPass : Action fmt Unit) workerPass := by
  rintro _ _ ⟨cache, skips, reads⟩
  rename_i disk engine faults
  unfold LsmStore.workerPass
  by_cases idle : engine.inbox = 0 ∨ engine.running = false
  · rw [if_pos idle, if_pos idle]
    exact .ok _ (.intro cache skips reads)
  · rw [if_neg idle, if_neg idle]
    have passed := compactOnce ⟨disk, { engine with inbox := engine.inbox - 1 }, faults⟩ _
      (.intro cache skips reads)
    dsimp only
    revert passed
    generalize LsmStore.compactOnce _ = ended
    generalize LsmStore.compactOnce _ = ended'
    intro passed
    cases passed with
    | ok value reached => exact .ok _ reached
    | error failure reached =>
        cases failure <;> cases reached <;> exact .ok _ (.intro _ _ _)

theorem drain (requests : Nat) : InStep Unread (drain requests : Action fmt Unit) (drain requests) := by
  induction requests with
  | zero => exact .pure ()
  | succ requests ih => exact workerPass.bind fun _ => ih

theorem shutdown : InStep Unread (shutdown : Action fmt Unit) shutdown := by
  refine Twins.current ?_
  rintro _ _ ⟨cache, skips, reads⟩
  exact drain _

theorem reopen : InStep Unread (reopen : Action fmt Unit) reopen := by
  refine shutdown.bind fun _ => Twins.current ?_
  rintro _ _ ⟨cache, skips, reads⟩
  rename_i disk engine faults
  dsimp only
  cases openWith engine.options disk with
  | error failure => exact .throw failure
  | ok opened =>
      intro db twin unread
      exact .ok () (refl _)

/-- **Every command that is not a read is in step.** -/
theorem command {command : Command} (writes : ∀ key, command ≠ .get key) :
    InStep Unread (command.action : Action fmt Unit) command.action := by
  cases command with
  | put key value => exact twins.put maybeRequestCompaction key value
  | delete key => exact twins.delete maybeRequestCompaction key
  | get key => exact absurd rfl (writes key)
  | flush => exact twins.flush maybeRequestCompaction
  | compact => exact compactOnce
  | workerPass => exact workerPass
  | reopen => exact reopen

end Unread

/-! ## Runs -/

/-- Whether a command is a read. -/
def Command.reads : Command → Bool
  | .get _ => true
  | _ => false

/-- The commands of a run with what each of them returned, up to the one that ended it. -/
def replies : List Command → Db fmt → List (Command × Except Failure Unit)
  | [], _ => []
  | command :: rest, db =>
      (command, db.eval command.action) ::
        match execute command db with
        | .ok next => replies rest next
        | .error _ => []

/-- A run and the run without its reads, from databases that differ by reads. -/
theorem Unread.run {quiet busy : Db fmt} (unread : Unread quiet busy) (commands : List Command) :
    (replies commands busy).filter (fun reply => !reply.1.reads) =
        replies (commands.filter fun command => !command.reads) quiet ∧
      ((∃ quiet' busy',
          executeAll (commands.filter fun command => !command.reads) quiet = .ok quiet' ∧
          executeAll commands busy = .ok busy' ∧ Unread quiet' busy') ∨
        ∃ failure,
          executeAll (commands.filter fun command => !command.reads) quiet = .error failure ∧
          executeAll commands busy = .error failure) := by
  induction commands generalizing quiet busy with
  | nil => exact ⟨rfl, .inl ⟨quiet, busy, rfl, rfl, unread⟩⟩
  | cons command rest ih =>
      by_cases isRead : command.reads = true
      · obtain ⟨key, rfl⟩ : ∃ key, command = .get key := by
          cases command <;> first | exact ⟨_, rfl⟩ | cases isRead
        obtain ⟨next, executed, further⟩ := Unread.execute_get key busy
        obtain ⟨sameReplies, sameEnd⟩ := ih (unread.trans further)
        rw [List.filter_cons_of_neg (by simp [isRead])]
        refine ⟨?_, ?_⟩
        · rw [replies, executed, List.filter_cons_of_neg (by simp [isRead])]
          exact sameReplies
        · rw [executeAll, executed]
          exact sameEnd
      · rw [List.filter_cons_of_pos (by simp [isRead])]
        have writes : ∀ key, command ≠ .get key := by
          rintro key rfl
          exact isRead rfl
        have alike := Unread.command writes quiet busy unread
        rw [replies, replies, List.filter_cons_of_pos (by simp [isRead]), executeAll, executeAll]
        unfold Db.eval execute
        generalize command.action quiet = ended at alike
        generalize command.action busy = ended' at alike
        cases alike with
        | ok value reached =>
            obtain ⟨sameReplies, sameEnd⟩ := ih reached
            exact ⟨congrArg _ sameReplies, sameEnd⟩
        | error failure reached =>
            cases failure with
            | panic => exact ⟨rfl, .inr ⟨_, rfl, rfl⟩⟩
            | error cause =>
                by_cases reopens : command = .reopen
                · simp only [if_pos reopens]
                  exact ⟨rfl, .inr ⟨_, rfl, rfl⟩⟩
                · simp only [if_neg reopens]
                  obtain ⟨sameReplies, sameEnd⟩ := ih reached
                  exact ⟨congrArg _ sameReplies, sameEnd⟩

/-- **Reads leave no trace.**  Whatever the state of the database, whichever file operations
are going to fail, and wherever reads are made in a run: every other command returns what it
returns in the run without the reads, and the two runs end with the same failure, or with the
same directory and the same engine but for the block cache and the two read counters. -/
theorem reads_leave_no_trace (commands : List Command) (db : Db fmt) :
    (replies commands db).filter (fun reply => !reply.1.reads) =
        replies (commands.filter fun command => !command.reads) db ∧
      ((∃ quiet last,
          executeAll (commands.filter fun command => !command.reads) db = .ok quiet ∧
          executeAll commands db = .ok last ∧ Unread quiet last) ∨
        ∃ failure,
          executeAll (commands.filter fun command => !command.reads) db = .error failure ∧
          executeAll commands db = .error failure) :=
  (Unread.refl db).run commands

end LsmStore
