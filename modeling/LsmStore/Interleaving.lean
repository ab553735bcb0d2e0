import LsmStore.InFlight
import LsmStore.Runs

/-!
# Interleavings

The engine's user writes, reads and flushes while the background worker, and
perhaps the user's own call of `compact`, run compaction passes.  Each of these is
a sequence of steps that hold a lock, and the steps of different threads may come
in any order.  This module cuts `flushMemtable` and `compactOnce` into those steps
and lets a schedule choose which of them comes next.

The steps of one flush in a row are `flushMemtable` (`run_flush`), those of one
pass in a row are `compactOnce` (`run_pass`).

A schedule is allowed more than the threads can do: a flush may begin after any
write and not only when the memtable is full, the worker may begin a pass without
a request, and the user may read and flush during a call of `compact`.
-/

set_option autoImplicit false

namespace LsmStore

open Foundation

variable {fmt : TableFormat}

/-! ## Steps of a pass -/

/-- How far a pass of `compactOnce` has come. -/
inductive Pass (fmt : TableFormat) where
  | idle
  | picked (snapshot : Version fmt) (job : CompactionJob fmt)
  | allocated (snapshot : Version fmt) (job : CompactionJob fmt) (outputId : UInt64)
  | written (snapshot : Version fmt) (job : CompactionJob fmt) (output : SsTable fmt)
  | recorded (snapshot : Version fmt) (job : CompactionJob fmt) (output : SsTable fmt)

namespace Pass

/-- The next step of a pass: snapshot and pick, allocate an id, merge and write the
output, edit the manifest, install and clean up. -/
def advance : Pass fmt → Action fmt (Pass fmt)
  | .idle => do
      let db ← current
      match pickCompaction db.engine.version db.engine.options with
      | .error failure => throw failure
      | .ok none => return .idle
      | .ok (some job) => return .picked db.engine.version job
  | .picked snapshot job => do
      let outputId ← nextTableId
      return .allocated snapshot job outputId
  | .allocated snapshot job outputId => do
      let output ← writeOutput snapshot job outputId
      return .written snapshot job output
  | .written snapshot job output => do
      recordCompaction output.id job
      return .recorded snapshot job output
  | .recorded snapshot job output => do
      installCompaction job output
      removeInputs snapshot job.inputs
      return .idle

section Advance

variable {snapshot : Version fmt} {job : CompactionJob fmt} {output : SsTable fmt}
  {outputId : UInt64} {db db' : Db fmt}

theorem advance_idle_of_pick (result : Except Failure (Option (CompactionJob fmt))) :
    pickCompaction db.engine.version db.engine.options = result →
    idle.advance db =
      (match result with
        | .error failure => throw failure
        | .ok none => return .idle
        | .ok (some job) => return .picked db.engine.version job : Action fmt (Pass fmt)) db := by
  rintro rfl
  rfl

theorem advance_idle {choice : Option (CompactionJob fmt)}
    (done : pickCompaction db.engine.version db.engine.options = .ok choice) :
    idle.advance db = .ok (choice.elim idle (picked db.engine.version)) db := by
  rw [advance_idle_of_pick _ done]
  cases choice <;> rfl

theorem advance_idle_panic
    (failed : pickCompaction db.engine.version db.engine.options = .error .panic) :
    idle.advance db = .error .panic db :=
  advance_idle_of_pick _ failed

theorem advance_picked (done : nextTableId db = .ok outputId db') :
    (picked snapshot job).advance db = .ok (allocated snapshot job outputId) db' :=
  bind_eq_ok.mpr ⟨_, _, done, rfl⟩

theorem advance_allocated (done : writeOutput snapshot job outputId db = .ok output db') :
    (allocated snapshot job outputId).advance db = .ok (written snapshot job output) db' :=
  bind_eq_ok.mpr ⟨_, _, done, rfl⟩

theorem advance_written (done : recordCompaction output.id job db = .ok () db') :
    (written snapshot job output).advance db = .ok (recorded snapshot job output) db' :=
  bind_eq_ok.mpr ⟨_, _, done, rfl⟩

theorem advance_recorded {mid : Db fmt} (done : installCompaction job output db = .ok () mid)
    (cleaned : removeInputs snapshot job.inputs mid = .ok () db') :
    (recorded snapshot job output).advance db = .ok idle db' :=
  bind_eq_ok.mpr ⟨_, _, done, bind_eq_ok.mpr ⟨_, _, cleaned, rfl⟩⟩

end Advance

/-- The snapshot and the job of a pass under way. -/
def task : Pass fmt → Option (Version fmt × CompactionJob fmt)
  | .idle => none
  | .picked snapshot job | .allocated snapshot job _ | .written snapshot job _
  | .recorded snapshot job _ => some (snapshot, job)

theorem task_eq_none_iff {pass : Pass fmt} : pass.task = none ↔ pass = .idle := by
  cases pass <;> simp [task]

/-- The id that a pass has allocated and not yet installed. -/
def id : Pass fmt → Option UInt64
  | .idle | .picked _ _ => none
  | .allocated _ _ outputId => some outputId
  | .written _ _ output | .recorded _ _ output => some output.id

end Pass

/-! ## Steps of a flush -/

/-- How far a run of `flushMemtable` has come. -/
inductive Flush (fmt : TableFormat) where
  | idle
  | frozen (snapshot : List (Key × Entry))
  | allocated (snapshot : List (Key × Entry)) (tableId : UInt64)
  | written (snapshot : List (Key × Entry)) (table : SsTable fmt)
  | recorded (snapshot : List (Key × Entry)) (table : SsTable fmt)
  | installed (snapshot : List (Key × Entry))
  | truncated (snapshot : List (Key × Entry))

namespace Flush

/-- The next step of a flush. -/
def advance : Flush fmt → Action fmt (Flush fmt)
  | .idle => do
      if (← current).engine.memtable.isEmpty then
        walSync
        return .idle
      else
        let snapshot ← freeze
        return .frozen snapshot
  | .frozen snapshot => do
      let tableId ← nextTableId
      return .allocated snapshot tableId
  | .allocated snapshot tableId => do
      let table ← createTable tableId snapshot
      return .written snapshot table
  | .written snapshot table => do
      addTable table.id 0
      return .recorded snapshot table
  | .recorded snapshot table => do
      pushFront table
      return .installed snapshot
  | .installed snapshot => do
      walTruncate
      return .truncated snapshot
  | .truncated _ => do
      clearImmutable
      return .idle

section Advance

variable {snapshot : List (Key × Entry)} {table : SsTable fmt} {tableId : UInt64}
  {db db' : Db fmt}

theorem advance_idle_of_empty (empty : db.engine.memtable.isEmpty = true)
    (done : walSync db = .ok () db') : idle.advance db = .ok idle db' := by
  refine (bind_of_ok (show current db = .ok db db from rfl)).trans ?_
  rw [if_pos empty]
  exact bind_eq_ok.mpr ⟨_, _, done, rfl⟩

theorem advance_idle (nonempty : db.engine.memtable.isEmpty = false)
    (done : freeze db = .ok snapshot db') : idle.advance db = .ok (frozen snapshot) db' := by
  refine (bind_of_ok (show current db = .ok db db from rfl)).trans ?_
  rw [if_neg (by simp [nonempty])]
  exact bind_eq_ok.mpr ⟨_, _, done, rfl⟩

theorem advance_frozen (done : nextTableId db = .ok tableId db') :
    (frozen snapshot).advance db = .ok (allocated snapshot tableId) db' :=
  bind_eq_ok.mpr ⟨_, _, done, rfl⟩

theorem advance_allocated (done : createTable tableId snapshot db = .ok table db') :
    (allocated snapshot tableId).advance db = .ok (written snapshot table) db' :=
  bind_eq_ok.mpr ⟨_, _, done, rfl⟩

theorem advance_written (done : addTable table.id 0 db = .ok () db') :
    (written snapshot table).advance db = .ok (recorded snapshot table) db' :=
  bind_eq_ok.mpr ⟨_, _, done, rfl⟩

theorem advance_recorded (done : pushFront table db = .ok () db') :
    (recorded snapshot table).advance db = .ok (installed snapshot) db' :=
  bind_eq_ok.mpr ⟨_, _, done, rfl⟩

theorem advance_installed (done : walTruncate db = .ok () db') :
    (installed snapshot : Flush fmt).advance db = .ok (truncated snapshot) db' :=
  bind_eq_ok.mpr ⟨_, _, done, rfl⟩

theorem advance_truncated (done : clearImmutable db = .ok () db') :
    (truncated snapshot : Flush fmt).advance db = .ok idle db' :=
  bind_eq_ok.mpr ⟨_, _, done, rfl⟩

end Advance

/-- Whether no flush is under way. -/
def isIdle : Flush fmt → Bool
  | .idle => true
  | _ => false

theorem isIdle_iff {flush : Flush fmt} : flush.isIdle = true ↔ flush = .idle := by
  cases flush <;> simp [isIdle]

/-- The id that a flush has allocated and not yet installed. -/
def id : Flush fmt → Option UInt64
  | .allocated _ tableId => some tableId
  | .written _ table | .recorded _ table => some table.id
  | _ => none

end Flush

/-! ## Schedules -/

/-- The threads that run compaction passes. -/
inductive Thread where
  | worker
  | caller
  deriving DecidableEq

/-- The other of the two threads. -/
def Thread.other : Thread → Thread
  | .worker => .caller
  | .caller => .worker

/-- A database with the operations under way in it. -/
structure State (fmt : TableFormat) where
  db : Db fmt
  flush : Flush fmt
  passes : Thread → Pass fmt

/-- A database in which nothing is under way. -/
def State.start (db : Db fmt) : State fmt := ⟨db, .idle, fun _ => .idle⟩

/-- What a schedule can choose: a write or a read of the engine's user, the next
step of the user's flush, or the next step of a thread's pass. -/
inductive Event where
  | put (key value : Bytes)
  | delete (key : Bytes)
  | get (key : Bytes)
  | flush
  | pass (thread : Thread)
  deriving DecidableEq

/-- The write of an event, if the engine accepts it. -/
def Event.operation : Event → Option Operation
  | .put key value => (Command.put key value).operation
  | .delete key => (Command.delete key).operation
  | _ => none

theorem Event.operation_valid {event : Event} {operation : Operation}
    (accepted : event.operation = some operation) : operation.Fits ∧ operation.key ≠ [] := by
  cases event with
  | put key value =>
      rcases @put_cases smallTables key value with ⟨refused, _⟩ | ⟨isPut, fits, keyed, _⟩
      · cases refused.symm.trans accepted
      · cases isPut.symm.trans accepted
        exact ⟨fits, keyed⟩
  | delete key =>
      rcases @delete_cases smallTables key with ⟨refused, _⟩ | ⟨isDelete, fits, keyed, _⟩
      · cases refused.symm.trans accepted
      · cases isDelete.symm.trans accepted
        exact ⟨fits, keyed⟩
  | get key => cases accepted
  | flush => cases accepted
  | pass thread => cases accepted

/-- Logs, syncs and applies an operation: `write` up to the flush. -/
def logAndApply (operation : Operation) : Action fmt Unit := do
  walAppend operation
  walSync
  applyOperation operation

theorem write_eq_logAndApply (operation : Operation) :
    (write operation : Action fmt Unit) = (do
      logAndApply operation
      let db ← current
      if db.engine.memtable.approximateSize ≥ db.engine.options.memtableSizeBytes then flush) := by
  unfold write logAndApply
  simp only [bind_assoc]

namespace State

/-- The state after an action that carries the state of the flush. -/
def afterFlush (state : State fmt) : EStateM.Result Failure (Db fmt) (Flush fmt) →
    Option (State fmt)
  | .ok flush db => some { state with db := db, flush := flush }
  | .error _ _ => none

/-- The state after an action that carries the state of a pass. -/
def afterPass (state : State fmt) (thread : Thread) :
    EStateM.Result Failure (Db fmt) (Pass fmt) → Option (State fmt)
  | .ok pass db =>
      some { state with db := db, passes := Function.update state.passes thread pass }
  | .error _ _ => none

/-- A write waits for the user's flush to finish; a refused one changes nothing. -/
def write (state : State fmt) (operation : Option Operation) : Option (State fmt) :=
  match state.flush, operation with
  | .idle, none => some state
  | .idle, some operation =>
      match logAndApply operation state.db with
      | .ok () db => some { state with db := db }
      | .error _ _ => none
  | _, _ => none

/-- A read may change the cache and the counters. -/
def read (state : State fmt) (key : Key) : Option (State fmt) :=
  match get key state.db with
  | .ok _ db => some { state with db := db }
  | .error (.error _) db => some { state with db := db }
  | .error .panic _ => none

end State

/-- The state after an event; none if the event has to wait or its step fails. -/
def Event.step (event : Event) (state : State fmt) : Option (State fmt) :=
  match event with
  | .put _ _ | .delete _ => state.write event.operation
  | .get key => state.read key
  | .flush => state.afterFlush (state.flush.advance state.db)
  | .pass thread => state.afterPass thread ((state.passes thread).advance state.db)

/-- The state after a schedule. -/
def run : List Event → State fmt → Option (State fmt)
  | [], state => some state
  | event :: rest, state =>
      match event.step state with
      | none => none
      | some next => run rest next

/-- Every event of a schedule meets a condition in the state it comes in. -/
def AllEvents (Meets : Event → State fmt → Prop) : List Event → State fmt → Prop
  | [], _ => True
  | event :: rest, state =>
      Meets event state ∧
        match event.step state with
        | none => True
        | some next => AllEvents Meets rest next

instance decidableAllEvents (Meets : Event → State fmt → Prop)
    [∀ event state, Decidable (Meets event state)] :
    ∀ (events : List Event) (state : State fmt), Decidable (AllEvents Meets events state)
  | [], _ => isTrue trivial
  | event :: rest, state =>
      have : Decidable (match event.step state with
          | none => True
          | some next => AllEvents Meets rest next) :=
        match event.step state with
        | none => isTrue trivial
        | some next => decidableAllEvents Meets rest next
      inferInstanceAs (Decidable (Meets event state ∧ _))

/-! ## Steps in a row -/

theorem run_cons {event : Event} {state next : State fmt} (stepped : event.step state = some next)
    (rest : List Event) : run (event :: rest) state = run rest next := by
  rw [run, stepped]

section InARow

variable {db db' : Db fmt} {passes : Thread → Pass fmt}

theorem run_cons_flush {flush flush' : Flush fmt} (done : flush.advance db = .ok flush' db')
    (rest : List Event) :
    run (.flush :: rest) ⟨db, flush, passes⟩ = run rest ⟨db', flush', passes⟩ := by
  refine run_cons ?_ rest
  unfold Event.step
  dsimp only
  rw [done]
  rfl

theorem run_cons_pass {flush : Flush fmt} {thread : Thread} {pass pass' : Pass fmt}
    (done : pass.advance db = .ok pass' db') (rest : List Event) :
    run (.pass thread :: rest) ⟨db, flush, Function.update passes thread pass⟩ =
      run rest ⟨db', flush, Function.update passes thread pass'⟩ := by
  refine run_cons ?_ rest
  unfold Event.step
  dsimp only
  rw [Function.update_self, done]
  unfold State.afterPass
  dsimp only
  rw [Function.update_idem]

theorem writeOutput_id {snapshot : Version fmt} {job : CompactionJob fmt} {outputId : UInt64}
    {output : SsTable fmt} (written : writeOutput snapshot job outputId db = .ok output db') :
    output.id = outputId := by
  unfold writeOutput at written
  split at written
  · cases written
  · split at written
    · cases written
    · obtain ⟨_, _, _, _, rfl, _⟩ := createTable_of_ok written
      rfl

/-- **The steps of one pass in a row are `compactOnce`.** -/
theorem run_pass (flush : Flush fmt) {thread : Thread} (idle : passes thread = .idle)
    (done : compactOnce db = .ok () db') :
    run (List.replicate 5 (.pass thread)) ⟨db, flush, passes⟩ = some ⟨db', flush, passes⟩ := by
  have resting : Function.update passes thread .idle = passes := by
    rw [← idle]
    exact Function.update_eq_self ..
  unfold compactOnce at done
  obtain ⟨_, _, isState, done⟩ := bind_eq_ok.mp done
  cases isState
  rw [← resting]
  cases picked : pickCompaction db.engine.version db.engine.options with
  | error failure => rw [picked] at done; cases done
  | ok choice =>
      have first := Pass.advance_idle picked
      rw [picked] at done
      cases choice with
      | none =>
          cases done
          exact (run_cons_pass first _).trans ((run_cons_pass first _).trans
            ((run_cons_pass first _).trans ((run_cons_pass first _).trans
              (run_cons_pass first _))))
      | some job =>
          obtain ⟨outputId, _, allocated, done⟩ := bind_eq_ok.mp done
          obtain ⟨output, _, written, done⟩ := bind_eq_ok.mp done
          obtain ⟨_, _, recorded, done⟩ := bind_eq_ok.mp done
          obtain ⟨_, _, installed, cleaned⟩ := bind_eq_ok.mp done
          rw [← writeOutput_id written] at recorded
          calc run (List.replicate 5 (.pass thread)) ⟨db, flush, Function.update passes thread .idle⟩
              = run (List.replicate 4 (.pass thread)) ⟨db, flush, _⟩ := run_cons_pass first _
            _ = run (List.replicate 3 (.pass thread)) ⟨_, flush, _⟩ :=
                run_cons_pass (Pass.advance_picked allocated) _
            _ = run (List.replicate 2 (.pass thread)) ⟨_, flush, _⟩ :=
                run_cons_pass (Pass.advance_allocated written) _
            _ = run (List.replicate 1 (.pass thread)) ⟨_, flush, _⟩ :=
                run_cons_pass (Pass.advance_written recorded) _
            _ = some ⟨db', flush, Function.update passes thread .idle⟩ :=
                run_cons_pass (Pass.advance_recorded installed cleaned) _

/-- **The steps of one flush in a row are `flushMemtable`**, when there is something
to flush. -/
theorem run_flush (nonempty : db.engine.memtable.isEmpty = false)
    (done : flushMemtable db = .ok () db') :
    run (List.replicate 7 .flush) ⟨db, .idle, passes⟩ = some ⟨db', .idle, passes⟩ := by
  unfold flushMemtable at done
  obtain ⟨_, _, isState, done⟩ := bind_eq_ok.mp done
  cases isState
  rw [if_neg (by simp [nonempty])] at done
  obtain ⟨snapshot, _, frozen, done⟩ := bind_eq_ok.mp done
  obtain ⟨tableId, _, allocated, done⟩ := bind_eq_ok.mp done
  obtain ⟨table, _, written, done⟩ := bind_eq_ok.mp done
  obtain ⟨_, _, recorded, done⟩ := bind_eq_ok.mp done
  obtain ⟨_, _, installed, done⟩ := bind_eq_ok.mp done
  obtain ⟨_, _, truncated, cleared⟩ := bind_eq_ok.mp done
  have isTable : table.id = tableId := by
    obtain ⟨_, _, _, _, rfl, _⟩ := createTable_of_ok written
    rfl
  rw [← isTable] at recorded
  calc run (List.replicate 7 .flush) ⟨db, .idle, passes⟩
      = run (List.replicate 6 .flush) ⟨_, _, passes⟩ :=
        run_cons_flush (Flush.advance_idle nonempty frozen) _
    _ = run (List.replicate 5 .flush) ⟨_, _, passes⟩ :=
        run_cons_flush (Flush.advance_frozen allocated) _
    _ = run (List.replicate 4 .flush) ⟨_, _, passes⟩ :=
        run_cons_flush (Flush.advance_allocated written) _
    _ = run (List.replicate 3 .flush) ⟨_, _, passes⟩ :=
        run_cons_flush (Flush.advance_written recorded) _
    _ = run (List.replicate 2 .flush) ⟨_, _, passes⟩ :=
        run_cons_flush (Flush.advance_recorded installed) _
    _ = run (List.replicate 1 .flush) ⟨_, _, passes⟩ :=
        run_cons_flush (Flush.advance_installed truncated) _
    _ = some ⟨db', .idle, passes⟩ := run_cons_flush (Flush.advance_truncated cleared) _

end InARow

end LsmStore
