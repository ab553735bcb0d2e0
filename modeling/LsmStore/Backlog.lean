import LsmStore.ByteTables
import LsmStore.Failures
import LsmStore.LevelChoice
import LsmStore.Quiescence

/-!
# Requests and what they leave undone

A flush that leaves level 0 at its trigger sends one request, and the worker runs
one job for each request.  This module adds the mailbox to the steps of the
engine's user and of the worker: the user may only write or flush between
operations, asks for a compaction at the end of every flush, and the worker only
begins a pass after it has taken a request (`Move`).

Nothing is picked in a version exactly if level 0 is below its trigger and no
level between level 0 and the last one is larger than its limit.  The first half
always holds when the worker is idle and has no request left; the second half only if
the last pass left it so.  A pass can make the level it writes to too large, and no
request is sent for that
(`idle_worker_leaves_nothing`, `idle_worker_leaves_large_level`).
-/

set_option autoImplicit false

namespace LsmStore

open Foundation

variable {fmt : TableFormat}

/-! ## The mailbox -/

/-- What the engine's user still has to do in the operation under way. -/
inductive Duty where
  | free
  | flushing
  | requesting
  deriving DecidableEq

/-- The steps under way, with the mailbox between the user and the worker. -/
structure Service (fmt : TableFormat) where
  state : State fmt
  duty : Duty
  /-- Whether the worker has taken a request that it is still handling. -/
  awake : Bool

/-- What can come next: the user begins an operation or goes on with it, the worker
takes a request or goes on with its pass. -/
inductive Move where
  | put (key value : Bytes)
  | delete (key : Bytes)
  | flush
  | request
  | receive
  | pass
  deriving DecidableEq

namespace Service

def db (service : Service fmt) : Db fmt := service.state.db

/-- The worker's pass. -/
def working (service : Service fmt) : Pass fmt := service.state.passes .worker

/-- A service in which nothing is under way. -/
def start (db : Db fmt) : Service fmt := ⟨State.start db, .free, false⟩

/-- A write has been applied: a full memtable has to be flushed. -/
def written (service : Service fmt) (next : State fmt) : Service fmt :=
  { service with
    state := next
    duty := if next.db.engine.memtable.approximateSize ≥ next.db.engine.options.memtableSizeBytes
      then .flushing else .free }

/-- A step of a flush is over: the last one is followed by the request. -/
def flushed (service : Service fmt) (next : State fmt) : Service fmt :=
  { service with state := next, duty := if next.flush.isIdle then .requesting else .flushing }

/-- The user asks for a compaction if level 0 is at its trigger. -/
def requested (service : Service fmt) : Option (Service fmt) :=
  match maybeRequestCompaction service.state.db with
  | .ok () db => some { service with state := { service.state with db := db }, duty := .free }
  | .error _ _ => none

/-- The worker takes a request, if there is one and it is not handling another. -/
def received (service : Service fmt) : Option (Service fmt) :=
  if service.awake = false ∧ 0 < service.db.engine.inbox then
    let engine := { service.db.engine with inbox := service.db.engine.inbox - 1 }
    some { service with
      state := { service.state with db := { service.db with engine := engine } }
      awake := true }
  else none

/-- A step of the worker's pass is over: after the last one it waits again. -/
def passed (service : Service fmt) (next : State fmt) : Service fmt :=
  { service with state := next, awake := (next.passes .worker).task.isSome }

end Service

/-- The write of a move, if the engine accepts it. -/
def Move.operation : Move → Option Operation
  | .put key value => (Command.put key value).operation
  | .delete key => (Command.delete key).operation
  | _ => none

/-- The service after a move; none if the move has to wait or its step fails. -/
def Move.step (move : Move) (service : Service fmt) : Option (Service fmt) :=
  match move with
  | .put _ _ | .delete _ =>
      match service.duty, move.operation with
      | .free, none => some service
      | .free, some operation => (service.state.write (some operation)).map service.written
      | _, _ => none
  | .flush =>
      if service.duty = .requesting then none
      else (Event.flush.step service.state).map service.flushed
  | .request => if service.duty = .requesting then service.requested else none
  | .receive => service.received
  | .pass =>
      if service.awake then ((Event.pass .worker).step service.state).map service.passed else none

/-- The service after a list of moves. -/
def runMoves : List Move → Service fmt → Option (Service fmt)
  | [], service => some service
  | move :: rest, service =>
      match move.step service with
      | none => none
      | some next => runMoves rest next

/-- Every move meets a condition in the service it is made in. -/
def AllMoves (Meets : Move → Service fmt → Prop) : List Move → Service fmt → Prop
  | [], _ => True
  | move :: rest, service =>
      Meets move service ∧
        match move.step service with
        | none => True
        | some next => AllMoves Meets rest next

instance decidableAllMoves (Meets : Move → Service fmt → Prop)
    [∀ move service, Decidable (Meets move service)] :
    ∀ (moves : List Move) (service : Service fmt), Decidable (AllMoves Meets moves service)
  | [], _ => isTrue trivial
  | move :: rest, service =>
      have : Decidable (match move.step service with
          | none => True
          | some next => AllMoves Meets rest next) :=
        match move.step service with
        | none => isTrue trivial
        | some next => decidableAllMoves Meets rest next
      inferInstanceAs (Decidable (Meets move service ∧ _))

/-! ## What the steps do to the version -/

/-- Options, version and mailbox are as before. -/
structure Steady (before after : Db fmt) : Prop where
  options_eq : after.engine.options = before.engine.options
  version_eq : after.engine.version = before.engine.version
  inbox_eq : after.engine.inbox = before.engine.inbox
  running_eq : after.engine.running = before.engine.running

section Steps

variable {db db' : Db fmt}

theorem logAndApply_steady {operation : Operation} {value : Unit}
    (done : logAndApply operation db = .ok value db') : Steady db db' := by
  obtain ⟨_, _, appended, done⟩ := bind_eq_ok.mp done
  obtain ⟨_, _, rfl⟩ := walAppend_of_ok appended
  obtain ⟨_, _, synced, applied⟩ := bind_eq_ok.mp done
  obtain ⟨_, rfl⟩ := walSync_of_ok synced
  cases applied
  exact ⟨rfl, rfl, rfl, rfl⟩

/-- **A step of a flush** leaves the version, or puts a table in front of level 0. -/
theorem Flush.advance_version {flush flush' : Flush fmt}
    (done : flush.advance db = .ok flush' db') :
    Steady db db' ∨ ∃ table version, db.engine.version.pushFront table = .ok version ∧
      db' = { db with engine := { db.engine with version := version } } := by
  cases flush with
  | idle =>
      obtain ⟨_, _, isState, done⟩ := bind_eq_ok.mp done
      cases isState
      split at done
      · obtain ⟨_, _, synced, done⟩ := bind_eq_ok.mp done
        obtain ⟨_, rfl⟩ := walSync_of_ok synced
        cases done
        exact .inl ⟨rfl, rfl, rfl, rfl⟩
      · obtain ⟨_, _, frozen, done⟩ := bind_eq_ok.mp done
        cases frozen
        cases done
        exact .inl ⟨rfl, rfl, rfl, rfl⟩
  | frozen snapshot =>
      obtain ⟨_, _, allocated, done⟩ := bind_eq_ok.mp done
      obtain ⟨_, _, _, rfl⟩ := nextTableId_of_ok allocated
      cases done
      exact .inl ⟨rfl, rfl, rfl, rfl⟩
  | allocated snapshot tableId =>
      obtain ⟨_, _, created, done⟩ := bind_eq_ok.mp done
      obtain ⟨_, _, _, _, _, rfl⟩ := createTable_of_ok created
      cases done
      exact .inl ⟨rfl, rfl, rfl, rfl⟩
  | written snapshot table =>
      obtain ⟨_, _, added, done⟩ := bind_eq_ok.mp done
      obtain ⟨_, _, rfl⟩ := addTable_of_ok added
      cases done
      exact .inl ⟨rfl, rfl, rfl, rfl⟩
  | recorded snapshot table =>
      obtain ⟨_, _, install, done⟩ := bind_eq_ok.mp done
      unfold LsmStore.pushFront at install
      split at install
      · cases install
      · rename_i version pushed
        cases install
        cases done
        exact .inr ⟨table, version, pushed, rfl⟩
  | installed snapshot =>
      obtain ⟨_, _, truncated, done⟩ := bind_eq_ok.mp done
      obtain ⟨_, rfl⟩ := walTruncate_of_ok truncated
      cases done
      exact .inl ⟨rfl, rfl, rfl, rfl⟩
  | truncated snapshot =>
      obtain ⟨_, _, cleared, done⟩ := bind_eq_ok.mp done
      cases cleared
      cases done
      exact .inl ⟨rfl, rfl, rfl, rfl⟩

/-- The first step of a pass ends it, or takes on what was picked. -/
theorem Pass.advance_idle_cases {pass' : Pass fmt} (done : Pass.idle.advance db = .ok pass' db') :
    db' = db ∧
      (pickCompaction db.engine.version db.engine.options = .ok none ∧ pass' = .idle ∨
        ∃ job, pickCompaction db.engine.version db.engine.options = .ok (some job) ∧
          pass' = .picked db.engine.version job) := by
  cases picked : pickCompaction db.engine.version db.engine.options with
  | error failure =>
      rw [Pass.advance_idle_of_pick _ picked] at done
      cases done
  | ok choice =>
      rw [Pass.advance_idle picked] at done
      cases choice with
      | none => cases done; exact ⟨rfl, .inl ⟨rfl, rfl⟩⟩
      | some job => cases done; exact ⟨rfl, .inr ⟨job, rfl, rfl⟩⟩

/-- **A later step of a pass** keeps its task and leaves the version, or installs its
output and ends the pass. -/
theorem Pass.advance_version {pass pass' : Pass fmt} {snapshot : Version fmt}
    {job : CompactionJob fmt} (task : pass.task = some (snapshot, job))
    (owned : ∀ input ∈ job.inputs, input ∈ snapshot.tablesNewestFirst)
    (inside : job.outputLevel < db.engine.version.levels.length)
    (done : pass.advance db = .ok pass' db') :
    pass'.task = some (snapshot, job) ∧ Steady db db' ∨
      ∃ output, pass = .recorded snapshot job output ∧ pass' = .idle ∧
        db' = { db with engine :=
          { db.engine with version := installed db.engine.version job output } } := by
  cases pass with
  | idle => cases task
  | picked snapshot' job' =>
      cases task
      obtain ⟨_, _, allocated, done⟩ := bind_eq_ok.mp done
      obtain ⟨_, _, _, rfl⟩ := nextTableId_of_ok allocated
      cases done
      exact .inl ⟨rfl, rfl, rfl, rfl, rfl⟩
  | allocated snapshot' job' outputId =>
      cases task
      obtain ⟨_, _, written, done⟩ := bind_eq_ok.mp done
      obtain ⟨_, _, _, _, _, rfl⟩ := writeOutput_of_ok written
      cases done
      exact .inl ⟨rfl, rfl, rfl, rfl, rfl⟩
  | written snapshot' job' output =>
      cases task
      obtain ⟨_, _, recorded, done⟩ := bind_eq_ok.mp done
      obtain ⟨_, _, added, removed⟩ := bind_eq_ok.mp recorded
      obtain ⟨_, _, rfl⟩ := addTable_of_ok added
      obtain ⟨_, rfl⟩ := removeTables_of_ok removed
      cases done
      exact .inl ⟨rfl, rfl, rfl, rfl, rfl⟩
  | recorded snapshot' job' output =>
      cases task
      obtain ⟨_, _, install, done⟩ := bind_eq_ok.mp done
      obtain ⟨_, _, cleaned, done⟩ := bind_eq_ok.mp done
      unfold installCompaction at install
      rw [applyCompaction_eq inside] at install
      cases install
      rw [removeInputs_eq owned] at cleaned
      cases cleaned
      cases done
      exact .inr ⟨output, rfl, rfl, rfl⟩

end Steps

/-! ## The invariant -/

section Invariant

variable {options : Options} {service next : Service fmt}

/-- The tables of level 0 that the worker's job will leave there. -/
def Service.untaken (service : Service fmt) : List (SsTable fmt) :=
  match service.working.task with
  | none => service.db.engine.version.level 0
  | some (_, job) => job.keeps (service.db.engine.version.level 0)

/-- What holds between the moves.  Between the user's operations, a level 0 that the
worker's pass will leave at its trigger is known to the worker: there is a request, or
it has taken one and not yet picked.  An idle worker without requests has left the
deeper levels within their limits. -/
structure Attended (options : Options) (service : Service fmt) : Prop where
  options_eq : service.db.engine.options = options
  depth_eq : service.db.engine.version.levels.length = options.maxLevels
  running : service.db.engine.running = true
  asleep : service.awake = false → service.working = .idle
  task : ∀ snapshot job, service.working.task = some (snapshot, job) →
    1 ≤ job.outputLevel ∧ job.outputLevel < options.maxLevels ∧
      ∀ input ∈ job.inputs, input ∈ snapshot.tablesNewestFirst
  known : service.duty = .free → options.l0CompactionTrigger ≤ service.untaken.length →
    0 < service.db.engine.inbox ∨ service.awake = true ∧ service.working = .idle
  limits : service.awake = false → service.db.engine.inbox = 0 →
    WithinLimits options service.db.engine.version

/-- A pass that leaves no request behind installs its output only where every level
between level 0 and the last one stays within its limit: the tables of the level that
are not merged, and the output if it goes there. -/
def Settles (move : Move) (service : Service fmt) : Prop :=
  match move, service.working with
  | .pass, .recorded _ job output =>
      service.db.engine.inbox = 0 →
        ∀ depth < service.db.engine.options.maxLevels - 2,
          ((job.keeps (service.db.engine.version.level (depth + 1))).map SsTable.sizeBytes).sum +
            (if depth + 1 = job.outputLevel then output.sizeBytes else 0) ≤
              levelLimit service.db.engine.options depth
  | _, _ => True

instance (move : Move) (service : Service fmt) : Decidable (Settles move service) := by
  unfold Settles
  split <;> infer_instance

/-- Moves that leave the worker, the options, the version and the mailbox alone. -/
theorem Attended.of_steady (attended : Attended options service)
    (steady : Steady service.db next.db) (working : next.working = service.working)
    (awake : next.awake = service.awake) (duty : next.duty = .free → service.duty = .free) :
    Attended options next := by
  have untaken : next.untaken = service.untaken := by
    rw [Service.untaken, Service.untaken, working, steady.version_eq]
  refine ⟨steady.options_eq.trans attended.options_eq, ?_, ?_, ?_, ?_, ?_, ?_⟩
  · rw [steady.version_eq]
    exact attended.depth_eq
  · exact steady.running_eq.trans attended.running
  · rw [awake, working]
    exact attended.asleep
  · rw [working]
    exact attended.task
  · rw [untaken, steady.inbox_eq, awake, working]
    exact fun free => attended.known (duty free)
  · rw [awake, steady.inbox_eq, steady.version_eq]
    exact attended.limits

theorem level_pos_pushFront {version version' : Version fmt} {table : SsTable fmt}
    (pushed : version.pushFront table = .ok version') (within : WithinLimits options version) :
    WithinLimits options version' := by
  obtain ⟨_, _, _, deeper⟩ := pushFront_eq_ok pushed
  intro depth below
  rw [Version.levelBytes, deeper (depth + 1) (by omega)]
  exact within depth below

/-- A step of the user's flush. -/
theorem Attended.flush {state : State fmt} (attended : Attended options service)
    (stepped : Event.flush.step service.state = some state) :
    Attended options (service.flushed state) := by
  have stepped : service.state.afterFlush (service.state.flush.advance service.db) = some state :=
    stepped
  cases done : service.state.flush.advance service.db with
  | error failure db => rw [done] at stepped; cases stepped
  | ok flush db =>
      rw [done] at stepped
      cases stepped
      have busy : (service.flushed { service.state with db := db, flush := flush }).duty ≠ .free := by
        rw [Service.flushed]
        dsimp only
        split <;> nofun
      rcases Flush.advance_version done with steady | ⟨table, version, pushed, rfl⟩
      · exact attended.of_steady steady rfl rfl fun free => absurd free busy
      · exact ⟨attended.options_eq, (pushFront_eq_ok pushed).2.1.trans attended.depth_eq,
          attended.running, attended.asleep, attended.task, fun free => absurd free busy,
          fun asleep handled => level_pos_pushFront pushed (attended.limits asleep handled)⟩

/-- The request at the end of a flush. -/
theorem Attended.request (attended : Attended options service)
    (stepped : service.requested = some next) : Attended options next := by
  rw [Service.requested, maybeRequestCompaction] at stepped
  split_ifs at stepped with long
  · cases stepped
    exact ⟨attended.options_eq, attended.depth_eq, attended.running, attended.asleep,
      attended.task, fun _ _ => .inl (Nat.succ_pos _),
      fun _ handled => absurd handled (Nat.succ_ne_zero _)⟩
  · cases stepped
    refine ⟨attended.options_eq, attended.depth_eq, attended.running, attended.asleep,
      attended.task, fun _ reached => absurd ⟨?_, attended.running⟩ long, attended.limits⟩
    have fewer : service.untaken.length ≤ (service.db.engine.version.level 0).length := by
      rw [Service.untaken]
      split
      · exact Nat.le_refl _
      · exact List.length_filter_le _ _
    have isOptions : service.state.db.engine.options = options := attended.options_eq
    rw [isOptions]
    exact Nat.le_trans reached fewer

/-- The worker takes a request. -/
theorem Attended.receive (attended : Attended options service)
    (stepped : service.received = some next) : Attended options next := by
  rw [Service.received] at stepped
  split_ifs at stepped with waiting
  cases stepped
  have idle := attended.asleep waiting.1
  exact ⟨attended.options_eq, attended.depth_eq, attended.running, nofun, attended.task,
    fun _ _ => .inr ⟨rfl, idle⟩, nofun⟩

/-- A job leaves level 0 below its trigger: it takes all of it, or was picked because
level 0 is short. -/
theorem keeps_lt_of_pick {version : Version fmt} {job : CompactionJob fmt}
    (trigger : 1 ≤ options.l0CompactionTrigger)
    (picked : pickCompaction version options = .ok (some job)) :
    (job.keeps (version.level 0)).length < options.l0CompactionTrigger := by
  by_cases short : (version.level 0).length < options.l0CompactionTrigger
  · exact Nat.lt_of_le_of_lt (List.length_filter_le _ _) short
  · obtain ⟨levels⟩ := version
    cases levels with
    | nil => cases picked
    | cons l0 deeper =>
        rw [pickCompaction] at picked
        dsimp only at picked
        rw [if_pos (show l0.length ≥ _ from Nat.not_lt.mp short)] at picked
        cases picked
        have none : ∀ inputs level, CompactionJob.keeps ⟨l0 ++ inputs, level⟩ l0 = [] := by
          intro inputs level
          refine List.filter_eq_nil_iff.mpr fun table member => ?_
          rw [CompactionJob.takes_of_mem (List.mem_append_left _ member)]
          intro impossible
          cases impossible
        change (CompactionJob.keeps _ l0).length < _
        rw [none]
        exact trigger

/-- The first step of a pass. -/
theorem Attended.pick {pass : Pass fmt} (attended : Attended options service)
    (small : options.memtableSizeBytes * options.l0CompactionTrigger ≤ u64Max)
    (levels : 2 ≤ options.maxLevels) (trigger : 1 ≤ options.l0CompactionTrigger)
    {db : Db fmt} (done : Pass.idle.advance service.db = .ok pass db) (sameDb : next.db = db)
    (working : next.working = pass) (awake : next.awake = pass.task.isSome) :
    Attended options next := by
  have isOptions := attended.options_eq
  obtain ⟨rfl, outcome⟩ := Pass.advance_idle_cases done
  rw [isOptions] at outcome
  rcases outcome with ⟨nothing, rfl⟩ | ⟨job, picked, rfl⟩
  · obtain ⟨short, within⟩ :=
      (pickCompaction_none_iff small (by omega) attended.depth_eq).mp nothing
    refine ⟨?_, ?_, ?_, fun _ => working, ?_, ?_, ?_⟩
    all_goals simp only [sameDb, working, Service.untaken]
    · exact isOptions
    · exact attended.depth_eq
    · exact attended.running
    · nofun
    · exact fun _ reached => absurd reached (Nat.not_le.mpr short)
    · exact fun _ _ => within
  · refine ⟨?_, ?_, ?_, ?_, ?_, ?_, ?_⟩
    all_goals simp only [sameDb, working, awake, Service.untaken]
    · exact isOptions
    · exact attended.depth_eq
    · exact attended.running
    · nofun
    · rintro snapshot job' ⟨⟩
      obtain ⟨depth, _, _, above, _⟩ := exists_taken_of_pick levels trigger picked
      exact ⟨by omega, attended.depth_eq ▸ outputLevel_lt_of_pick attended.depth_eq picked,
        inputs_mem_of_pick picked⟩
    · exact fun _ reached => absurd reached (Nat.not_le.mpr (keeps_lt_of_pick trigger picked))
    · nofun

theorem levelBytes_installed {version : Version fmt} {job : CompactionJob fmt}
    {output : SsTable fmt} (inside : job.outputLevel < version.levels.length) (depth : Nat) :
    (installed version job output).levelBytes depth =
      ((job.keeps (version.level depth)).map SsTable.sizeBytes).sum +
        (if depth = job.outputLevel then output.sizeBytes else 0) := by
  rw [Version.levelBytes, level_installed version job output inside]
  split
  · rw [((placeOutput_perm output depth _).map _).sum_eq, List.map_cons, List.sum_cons,
      Nat.add_comm]
  · rfl

/-- A step of the worker's pass. -/
theorem Attended.pass {state : State fmt} (attended : Attended options service)
    (small : options.memtableSizeBytes * options.l0CompactionTrigger ≤ u64Max)
    (levels : 2 ≤ options.maxLevels) (trigger : 1 ≤ options.l0CompactionTrigger)
    (settles : Settles .pass service)
    (stepped : (Event.pass .worker).step service.state = some state) :
    Attended options (service.passed state) := by
  have stepped : service.state.afterPass .worker (service.working.advance service.db) = some state :=
    stepped
  cases done : service.working.advance service.db with
  | error failure db => rw [done] at stepped; cases stepped
  | ok pass db =>
      rw [done] at stepped
      cases stepped
      generalize isNext : service.passed { service.state with
        db := db, passes := Function.update service.state.passes .worker pass } = next
      have sameDb : next.db = db := by rw [← isNext]; rfl
      have duty : next.duty = service.duty := by rw [← isNext]; rfl
      have working : next.working = pass := by
        rw [← isNext]
        exact Function.update_self Thread.worker pass service.state.passes
      have awake : next.awake = pass.task.isSome := by rw [← working, ← isNext]; rfl
      have inside := attended.depth_eq
      cases task : service.working.task with
      | none =>
          rw [Pass.task_eq_none_iff.mp task] at done
          exact attended.pick small levels trigger done sameDb working awake
      | some found =>
          obtain ⟨snapshot, job⟩ := found
          obtain ⟨deeper, below, owned⟩ := attended.task snapshot job task
          -- the pass has picked already, so what it will leave at the trigger was requested
          have known : next.duty = .free → options.l0CompactionTrigger ≤
              (job.keeps (service.db.engine.version.level 0)).length →
                0 < service.db.engine.inbox := by
            intro free reached
            have before := attended.known (duty ▸ free)
            rw [Service.untaken, task] at before
            rcases before reached with pending | ⟨_, idle⟩
            · exact pending
            · rw [idle] at task
              cases task
          have outputInside : job.outputLevel < service.db.engine.version.levels.length := by omega
          rcases Pass.advance_version task owned outputInside done with
            ⟨same, steady⟩ | ⟨output, isRecorded, rfl, rfl⟩
          · refine ⟨?_, ?_, ?_, ?_, ?_, ?_, ?_⟩
            all_goals simp only [sameDb, working, awake, same, Service.untaken, steady.options_eq,
              steady.version_eq, steady.inbox_eq, steady.running_eq]
            · exact attended.options_eq
            · exact inside
            · exact attended.running
            · intro impossible
              cases impossible
            · rintro _ _ ⟨⟩
              exact ⟨deeper, below, owned⟩
            · exact fun free reached => .inl (known free reached)
            · intro impossible
              cases impossible
          · have top : (installed service.db.engine.version job output).level 0 =
                job.keeps (service.db.engine.version.level 0) := by
              rw [level_installed _ _ _ outputInside, if_neg (by omega)]
            refine ⟨?_, ?_, ?_, fun _ => working, ?_, ?_, ?_⟩
            all_goals simp only [sameDb, working, awake, Service.untaken, Pass.task, top,
              length_levels_installed]
            · exact attended.options_eq
            · exact inside
            · exact attended.running
            · rintro _ _ ⟨⟩
            · exact fun free reached => .inl (known free reached)
            · intro _ handled depth under
              rw [levelBytes_installed outputInside]
              simp only [Settles, isRecorded] at settles
              have room := settles handled depth
              rw [attended.options_eq] at room
              exact room (by omega)

/-- **A move keeps the invariant.** -/
theorem Attended.step {move : Move} (attended : Attended options service)
    (small : options.memtableSizeBytes * options.l0CompactionTrigger ≤ u64Max)
    (levels : 2 ≤ options.maxLevels) (trigger : 1 ≤ options.l0CompactionTrigger)
    (settles : Settles move service) (stepped : move.step service = some next) :
    Attended options next := by
  have write : ∀ operation, service.duty = .free →
      (service.state.write (some operation)).map service.written = some next →
        Attended options next := by
    intro operation free wrote
    obtain ⟨state, applied, rfl⟩ := Option.map_eq_some_iff.mp wrote
    unfold State.write at applied
    split at applied
    · rename_i refused
      cases refused
    · rename_i isOperation
      cases isOperation
      split at applied
      · rename_i done
        cases applied
        exact attended.of_steady (logAndApply_steady done) rfl rfl fun _ => free
      · cases applied
    · cases applied
  cases move with
  | put key value =>
      simp only [Move.step] at stepped
      split at stepped
      · cases stepped
        exact attended
      · rename_i free _
        exact write _ free stepped
      · cases stepped
  | delete key =>
      simp only [Move.step] at stepped
      split at stepped
      · cases stepped
        exact attended
      · rename_i free _
        exact write _ free stepped
      · cases stepped
  | flush =>
      simp only [Move.step] at stepped
      split_ifs at stepped
      obtain ⟨state, advanced, rfl⟩ := Option.map_eq_some_iff.mp stepped
      exact attended.flush advanced
  | request =>
      simp only [Move.step] at stepped
      split_ifs at stepped
      exact attended.request stepped
  | receive => exact attended.receive stepped
  | pass =>
      simp only [Move.step] at stepped
      split_ifs at stepped
      obtain ⟨state, advanced, rfl⟩ := Option.map_eq_some_iff.mp stepped
      exact attended.pass small levels trigger settles advanced

/-- A run keeps the invariant. -/
theorem Attended.run {moves : List Move} (attended : Attended options service)
    (small : options.memtableSizeBytes * options.l0CompactionTrigger ≤ u64Max)
    (levels : 2 ≤ options.maxLevels) (trigger : 1 ≤ options.l0CompactionTrigger)
    (settles : AllMoves Settles moves service) (ran : runMoves moves service = some next) :
    Attended options next := by
  induction moves generalizing service with
  | nil =>
      cases ran
      exact attended
  | cons move rest ih =>
      obtain ⟨here, later⟩ := settles
      rw [runMoves] at ran
      cases stepped : move.step service with
      | none => rw [stepped] at ran; cases ran
      | some mid =>
          rw [stepped] at ran later
          exact ih (attended.step small levels trigger here stepped) later ran

theorem attended_new (trigger : 1 ≤ options.l0CompactionTrigger) :
    Attended options (.start (Db.new fmt options)) where
  options_eq := rfl
  depth_eq := length_levels_rebuilt
  running := rfl
  asleep := fun _ => rfl
  task := nofun
  known := by
    intro _ reached
    change options.l0CompactionTrigger ≤ ((Db.new fmt options).engine.version.level 0).length
      at reached
    rw [level_new] at reached
    exact absurd (Nat.le_trans trigger reached) (Nat.not_succ_le_zero 0)
  limits := by
    intro _ _ depth _
    change (Db.new fmt options).engine.version.levelBytes (depth + 1) ≤ _
    rw [Version.levelBytes, level_new]
    exact Nat.zero_le _

/-- **An idle worker leaves nothing to pick.**  In every run of puts, deletes and flushes
on a new database, with the worker's steps at any moments between the user's: if every
pass that leaves no request behind keeps the levels it can fill within their limits, then
whenever the user is between two operations and the worker has handled every request,
nothing is picked. -/
theorem idle_worker_leaves_nothing (levels : 2 ≤ options.maxLevels)
    (trigger : 1 ≤ options.l0CompactionTrigger)
    (small : options.memtableSizeBytes * options.l0CompactionTrigger ≤ u64Max)
    {first : Db fmt} (opened : openNew fmt options = .ok first) {moves : List Move}
    (settles : AllMoves Settles moves (.start first)) {last : Service fmt}
    (ran : runMoves moves (.start first) = some last) (free : last.duty = .free)
    (asleep : last.awake = false) (handled : last.db.engine.inbox = 0) :
    pickCompaction last.db.engine.version last.db.engine.options = .ok none := by
  rw [openNew_eq] at opened
  cases opened
  have attended := (attended_new trigger).run small levels trigger settles ran
  have idle := attended.asleep asleep
  rw [attended.options_eq, pickCompaction_none_iff small (by omega) attended.depth_eq]
  refine ⟨?_, attended.limits asleep handled⟩
  by_contra long
  have known := attended.known free
  rw [Service.untaken, idle, handled, asleep] at known
  rcases known (Nat.not_lt.mp long) with pending | ⟨awake, _⟩
  · exact Nat.lt_irrefl _ pending
  · cases awake

end Invariant

/-! ## A level that is left too large -/

section LeftLarge

/-- A put, a flush and its request, and the pass of the worker that handles it. -/
def putFlushPass : List Move :=
  [.put [97] [49]] ++ List.replicate 7 .flush ++ [.request, .receive] ++ List.replicate 5 .pass

/-- One table of level 0 asks for a compaction; level 1 may hold 200 bytes. -/
def spaciousOptions : Options :=
  { tinyOptions with memtableSizeBytes := 200, l0CompactionTrigger := 1, maxLevels := 3 }

/-- One table of level 0 asks for a compaction; level 1 may hold 100 bytes. -/
def crampedOptions : Options := { tinyOptions with l0CompactionTrigger := 1, maxLevels := 3 }

/-- Whether a run ends between two operations, with an idle worker and no request, and
whether a job is picked then. -/
def endsIdle (outcome : Option (Service (byteTables smallSizing))) (picks : Bool) : Bool :=
  outcome.any fun last => decide (last.duty = .free) && !last.awake &&
    decide (last.db.engine.inbox = 0) &&
      match pickCompaction last.db.engine.version last.db.engine.options with
      | .ok (some _) => picks
      | _ => !picks

theorem exists_of_endsIdle {outcome : Option (Service (byteTables smallSizing))} {picks : Bool}
    (ends : endsIdle outcome picks = true) :
    ∃ last, outcome = some last ∧ last.duty = .free ∧ last.awake = false ∧
      last.db.engine.inbox = 0 ∧
      (picks = true → ∃ job,
        pickCompaction last.db.engine.version last.db.engine.options = .ok (some job)) := by
  rw [endsIdle, Option.any_eq_true] at ends
  obtain ⟨last, isLast, ends⟩ := ends
  simp only [Bool.and_eq_true, decide_eq_true_eq, Bool.not_eq_true'] at ends
  obtain ⟨⟨⟨free, asleep⟩, handled⟩, picked⟩ := ends
  refine ⟨last, isLast, free, asleep, handled, ?_⟩
  rintro rfl
  split at picked
  · exact ⟨_, by assumption⟩
  · cases picked

/-- The table of 117 bytes fits into level 1. -/
theorem idle_worker_leaves_nothing_spacious :
    ∃ last, runMoves putFlushPass
        (.start (Db.new (byteTables smallSizing) spaciousOptions)) = some last ∧
      pickCompaction last.db.engine.version last.db.engine.options = .ok none := by
  obtain ⟨last, ran, free, asleep, handled, _⟩ :=
    exists_of_endsIdle (show endsIdle (runMoves putFlushPass
      (.start (Db.new (byteTables smallSizing) spaciousOptions))) false = true by decide +kernel)
  exact ⟨last, ran, idle_worker_leaves_nothing (by decide) (by decide) (by decide)
    (openNew_eq _ spaciousOptions) (show AllMoves Settles putFlushPass _ by decide +kernel) ran free
    asleep handled⟩

/-- The table of 117 bytes does not fit into level 1, and no request is left. -/
theorem idle_worker_leaves_large_level :
    ∃ (last : Service (byteTables smallSizing)) (job : CompactionJob _),
      2 ≤ crampedOptions.maxLevels ∧ 1 ≤ crampedOptions.l0CompactionTrigger ∧
      openNew (byteTables smallSizing) crampedOptions = .ok (Db.new _ crampedOptions) ∧
      runMoves putFlushPass (.start (Db.new _ crampedOptions)) = some last ∧
      last.duty = .free ∧ last.awake = false ∧ last.db.engine.inbox = 0 ∧
      pickCompaction last.db.engine.version last.db.engine.options = .ok (some job) := by
  obtain ⟨last, ran, free, asleep, handled, picks⟩ :=
    exists_of_endsIdle (show endsIdle (runMoves putFlushPass
      (.start (Db.new (byteTables smallSizing) crampedOptions))) true = true by decide +kernel)
  obtain ⟨job, picked⟩ := picks rfl
  exact ⟨last, job, by decide, by decide, openNew_eq _ _, ran, free, asleep, handled, picked⟩

end LeftLarge

end LsmStore
