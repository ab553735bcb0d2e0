import LsmStore.Effects
import LsmStore.KeptRuns

/-!
# Levels are indexed in range

A level is indexed in three places: when the tables of the manifest are loaded, when a
flushed table is put in front of level 0, and when the output of a compaction is
installed.  Each index is cut down to the last level, so each is in range as soon as there
is a level at all.  Opening makes as many levels as the options say, and no operation
changes their number (`effects_alike`); it may fail anywhere, and the manifest may hold any
levels.  With at least one level in all options, an operation therefore panics only when
its arithmetic overflows (`level_indices_in_range`).

Options without levels are accepted.  An empty directory opens with them, and the first
flush panics (`flush_without_levels`).
-/

set_option autoImplicit false

namespace LsmStore

open Foundation

variable {fmt : TableFormat}

/-! ## The three places -/

theorem Version.length_levels_pushFront {version version' : Version fmt} {table : SsTable fmt}
    (pushed : version.pushFront table = .ok version') :
    version'.levels.length = version.levels.length := by
  obtain ⟨levels⟩ := version
  cases levels with
  | nil => cases pushed
  | cons l0 deeper => cases pushed; rfl

theorem Version.pushFront_ne_error {version : Version fmt} (present : 0 < version.levels.length)
    (table : SsTable fmt) (failure : Failure) : version.pushFront table ≠ .error failure := by
  obtain ⟨levels⟩ := version
  cases levels with
  | nil => cases present
  | cons l0 deeper => exact nofun

theorem length_levels_applyCompaction {version version' : Version fmt} {job : CompactionJob fmt}
    {output : SsTable fmt} (applied : applyCompaction version job output = .ok version') :
    version'.levels.length = version.levels.length := by
  unfold applyCompaction at applied
  dsimp only at applied
  split at applied
  · cases applied
  · cases applied
    rw [List.length_modify, List.length_map]

theorem applyCompaction_ne_error {version : Version fmt} (present : 0 < version.levels.length)
    (job : CompactionJob fmt) (output : SsTable fmt) (failure : Failure) :
    applyCompaction version job output ≠ .error failure := by
  unfold applyCompaction
  dsimp only
  rw [if_neg (List.ne_nil_of_length_pos present)]
  exact nofun

/-- The tables of a manifest, with whatever levels it records, are loaded in range. -/
theorem loadTables_levels (disk : Disk fmt) {maxLevels : Nat} (tables : List (UInt64 × UInt32))
    {version : Version fmt} (depth : version.levels.length = maxLevels) :
    (1 ≤ maxLevels → loadTables disk maxLevels tables version ≠ .error .panic) ∧
      ∀ version', loadTables disk maxLevels tables version = .ok version' →
        version'.levels.length = maxLevels := by
  induction tables generalizing version with
  | nil =>
      refine ⟨fun _ => by simp [loadTables], fun version' loaded => ?_⟩
      cases loaded
      exact depth
  | cons table rest ih =>
      obtain ⟨id, level⟩ := table
      rw [loadTables]
      cases disk.sst id with
      | none => exact ⟨fun _ => by simp, fun _ => by simp⟩
      | some file =>
          dsimp only
          cases fmt.openFile file with
          | error cause => exact ⟨fun _ => by simp, fun _ => by simp⟩
          | ok handle =>
              dsimp only
              split
              · exact ih (by rw [List.length_modify, depth])
              · rename_i outside
                exact ⟨fun positive => absurd (by omega) outside, fun _ => by simp⟩

theorem openWith_levels (options : Options) (disk : Disk fmt) :
    (1 ≤ options.maxLevels → openWith options disk ≠ .error .panic) ∧
      ∀ engine, openWith options disk = .ok engine →
        engine.options = options ∧ engine.version.levels.length = options.maxLevels := by
  unfold openWith
  cases Manifest.recover disk.manifest with
  | error cause => exact ⟨fun _ => nofun, fun _ => nofun⟩
  | ok manifest =>
      dsimp only
      obtain ⟨inRange, levels⟩ := loadTables_levels disk manifest.tables
        (show (Version.withMaxLevels fmt options.maxLevels).levels.length = options.maxLevels from
          List.length_replicate)
      cases loaded : loadTables disk options.maxLevels manifest.tables
          (Version.withMaxLevels fmt options.maxLevels) with
      | error failure =>
          rw [loaded] at inRange
          refine ⟨fun positive isPanic => ?_, fun _ => nofun⟩
          cases isPanic
          exact inRange positive rfl
      | ok version =>
          dsimp only
          cases (Wal.openLog (some disk.wal)).replay with
          | error cause => exact ⟨fun _ => nofun, fun _ => nofun⟩
          | ok operations =>
              refine ⟨fun _ => nofun, fun engine opened => ?_⟩
              cases opened
              exact ⟨rfl, (length_orderLevels version).trans (levels version loaded)⟩

/-! ## The number of levels stays -/

/-- As many levels, under the same options. -/
def Db.Alike (db after : Db fmt) : Prop :=
  after.engine.options = db.engine.options ∧
    after.engine.version.levels.length = db.engine.version.levels.length

theorem effects_alike : Effects (@Db.Alike fmt) where
  refl _ := ⟨rfl, rfl⟩
  trans _ _ _ first second := ⟨second.1.trans first.1, second.2.trans first.2⟩
  files db after touched := by rw [Db.Alike, touched.1]; exact ⟨rfl, rfl⟩
  modifyManifest _ _ := ⟨rfl, rfl⟩
  freeze _ := ⟨rfl, rfl⟩
  pushFront table db := by
    unfold Yields pushFront
    cases pushed : db.engine.version.pushFront table with
    | error failure => exact ⟨rfl, rfl⟩
    | ok version => exact ⟨rfl, Version.length_levels_pushFront pushed⟩
  clearImmutable _ := ⟨rfl, rfl⟩
  applyOperation _ _ := ⟨rfl, rfl⟩
  installCompaction job output db := by
    unfold Yields installCompaction
    cases applied : applyCompaction db.engine.version job output with
    | error failure => exact ⟨rfl, rfl⟩
    | ok version => exact ⟨rfl, length_levels_applyCompaction applied⟩
  notes _ _ _ _ _ _ _ := ⟨rfl, rfl⟩

/-! ## What else panics -/

/-- No table id is left, or the entries overflow the counters of a table file. -/
def CreationOverflows (db : Db fmt) (entries : List (Key × Entry)) : Prop :=
  ¬ Roomy db ∨ fmt.create db.engine.options entries = .error .panic

theorem flushMemtable_panics {db after : Db fmt} (present : 0 < db.engine.version.levels.length)
    (panics : flushMemtable db = .error .panic after) :
    CreationOverflows db db.engine.memtable.iter := by
  rcases bind_eq_error.mp panics with impossible | ⟨_, _, isState, panics⟩
  · cases impossible
  cases isState
  split at panics
  · obtain ⟨isFailure, _⟩ := walSync_of_error panics
    cases isFailure
  rcases bind_eq_error.mp panics with impossible | ⟨_, _, frozen, panics⟩
  · cases impossible
  cases frozen
  rcases bind_eq_error.mp panics with failed | ⟨_, _, allocated, panics⟩
  · rcases nextTableId_of_error failed with ⟨_, full, _⟩ | ⟨isFailure, _⟩
    · exact .inl full
    · cases isFailure
  obtain ⟨_, _, _, rfl⟩ := nextTableId_of_ok allocated
  rcases bind_eq_error.mp panics with failed | ⟨_, _, created, panics⟩
  · rcases createTable_of_error failed with ⟨refused, _⟩ | ⟨_, _, _, isFailure, _⟩
    · exact .inr refused
    · cases isFailure
  obtain ⟨_, _, _, _, _, rfl⟩ := createTable_of_ok created
  rcases bind_eq_error.mp panics with failed | ⟨_, _, added, panics⟩
  · rcases addTable_of_error failed with ⟨isFailure, _⟩ | ⟨isFailure, _⟩ <;> cases isFailure
  obtain ⟨_, _, rfl⟩ := addTable_of_ok added
  rcases bind_eq_error.mp panics with failed | ⟨_, _, _, panics⟩
  · unfold LsmStore.pushFront at failed
    split at failed
    · rename_i refused
      exact absurd refused (Version.pushFront_ne_error present _ _)
    · cases failed
  rcases bind_eq_error.mp panics with failed | ⟨_, _, _, impossible⟩
  · obtain ⟨isFailure, _⟩ := walTruncate_of_error failed
    cases isFailure
  · cases impossible

theorem flush_panics {db after : Db fmt} (present : 0 < db.engine.version.levels.length)
    (panics : flush db = .error .panic after) : CreationOverflows db db.engine.memtable.iter := by
  rcases bind_eq_error.mp panics with failed | ⟨_, mid, _, impossible⟩
  · exact flushMemtable_panics present failed
  · unfold maybeRequestCompaction at impossible
    split at impossible <;> cases impossible

theorem walAppend_ne_panic (operation : Operation) {db after : Db fmt} :
    walAppend operation db ≠ .error .panic after := by
  obtain ⟨disk, engine, faults⟩ := db
  unfold walAppend
  cases (Wal.mk disk.wal).append operation with
  | error cause => exact nofun
  | ok appended =>
      cases faults with
      | nil => exact nofun
      | cons verdict rest => cases verdict <;> exact nofun

theorem write_panics {db after : Db fmt} {operation : Operation}
    (present : 0 < db.engine.version.levels.length)
    (panics : write operation db = .error .panic after) :
    CreationOverflows db (apply db.engine.memtable operation).iter := by
  rcases bind_eq_error.mp panics with failed | ⟨_, _, appended, panics⟩
  · exact absurd failed (walAppend_ne_panic operation)
  obtain ⟨_, _, rfl⟩ := walAppend_of_ok appended
  rcases bind_eq_error.mp panics with failed | ⟨_, _, synced, panics⟩
  · obtain ⟨isFailure, _⟩ := walSync_of_error failed
    cases isFailure
  obtain ⟨_, rfl⟩ := walSync_of_ok synced
  rcases bind_eq_error.mp panics with impossible | ⟨_, _, applied, panics⟩
  · cases impossible
  cases applied
  rcases bind_eq_error.mp panics with impossible | ⟨_, _, isState, panics⟩
  · cases impossible
  cases isState
  split at panics
  · have overflows := flush_panics (by exact present) panics
    exact overflows
  · cases panics

/-- Choosing the job overflows, or making its output does. -/
def CompactionOverflows (db : Db fmt) : Prop :=
  pickCompaction db.engine.version db.engine.options = .error .panic ∨
    ∃ job, pickCompaction db.engine.version db.engine.options = .ok (some job) ∧
      (¬ Roomy db ∨ ∃ iterators merged,
        inputIterators db.disk.sst job.inputs = .ok iterators ∧
          mergeTables iterators (dropTombstones db.engine.version db.engine.options job) =
            .ok merged ∧
          fmt.create db.engine.options merged = .error .panic)

theorem writeOutput_panics {snapshot : Version fmt} {job : CompactionJob fmt} {outputId : UInt64}
    {db after : Db fmt} (panics : writeOutput snapshot job outputId db = .error .panic after) :
    ∃ iterators merged, inputIterators db.disk.sst job.inputs = .ok iterators ∧
      mergeTables iterators (dropTombstones snapshot db.engine.options job) = .ok merged ∧
      fmt.create db.engine.options merged = .error .panic := by
  unfold writeOutput at panics
  split at panics
  · cases panics
  · rename_i iterators opened
    split at panics
    · cases panics
    · rename_i merged isMerged
      rcases createTable_of_error panics with ⟨refused, _⟩ | ⟨_, _, _, isFailure, _⟩
      · exact ⟨iterators, merged, opened, isMerged, refused⟩
      · cases isFailure

theorem removeInputs_ne_error (snapshot : Version fmt) (inputs : List (SsTable fmt))
    {db after : Db fmt} {failure : Failure} :
    removeInputs snapshot inputs db ≠ .error failure after := by
  induction inputs generalizing db with
  | nil => exact nofun
  | cons input rest ih =>
      intro failed
      rcases bind_eq_error.mp failed with impossible | ⟨_, _, isState, failed⟩
      · cases impossible
      cases isState
      split at failed
      · rcases bind_eq_error.mp failed with impossible | ⟨_, _, _, failed⟩
        · obtain ⟨disk, engine, faults⟩ := db
          cases faults with
          | nil => cases impossible
          | cons verdict rest => cases verdict <;> cases impossible
        · exact ih failed
      · exact ih failed

theorem compactOnce_panics {db after : Db fmt} (present : 0 < db.engine.version.levels.length)
    (panics : compactOnce db = .error .panic after) : CompactionOverflows db := by
  unfold compactOnce at panics
  rcases bind_eq_error.mp panics with impossible | ⟨_, _, isState, panics⟩
  · cases impossible
  cases isState
  cases picked : pickCompaction db.engine.version db.engine.options with
  | error failure =>
      rw [picked] at panics
      cases panics
      exact .inl picked
  | ok choice => ?_
  cases choice with
  | none => rw [picked] at panics; cases panics
  | some job => ?_
  rw [picked] at panics
  refine .inr ⟨job, picked, ?_⟩
  rcases bind_eq_error.mp panics with failed | ⟨_, _, allocated, panics⟩
  · rcases nextTableId_of_error failed with ⟨_, full, _⟩ | ⟨isFailure, _⟩
    · exact .inl full
    · cases isFailure
  obtain ⟨_, _, _, rfl⟩ := nextTableId_of_ok allocated
  rcases bind_eq_error.mp panics with failed | ⟨_, _, written, panics⟩
  · have refused := writeOutput_panics failed
    exact .inr refused
  obtain ⟨_, created⟩ := exists_createTable_of_writeOutput written
  obtain ⟨_, _, _, _, _, rfl⟩ := createTable_of_ok created
  exfalso
  rcases bind_eq_error.mp panics with failed | ⟨_, _, recorded, panics⟩
  · rcases bind_eq_error.mp failed with failed | ⟨_, _, _, failed⟩
    · rcases addTable_of_error failed with ⟨isFailure, _⟩ | ⟨isFailure, _⟩ <;> cases isFailure
    · obtain ⟨isFailure, _⟩ := removeTables_of_error failed
      cases isFailure
  obtain ⟨_, _, added, removed⟩ := bind_eq_ok.mp recorded
  obtain ⟨_, _, rfl⟩ := addTable_of_ok added
  obtain ⟨_, rfl⟩ := removeTables_of_ok removed
  rcases bind_eq_error.mp panics with failed | ⟨_, _, _, failed⟩
  · unfold LsmStore.installCompaction at failed
    split at failed
    · rename_i refused
      exact absurd refused (applyCompaction_ne_error present _ _ _)
    · cases failed
  · exact removeInputs_ne_error _ _ failed

/-- The arithmetic of a command overflows. -/
def Command.Overflows (db : Db fmt) : Command → Prop
  | put key value => CreationOverflows db (apply db.engine.memtable (.put key value)).iter
  | delete key => CreationOverflows db (apply db.engine.memtable (.delete key)).iter
  | flush => CreationOverflows db db.engine.memtable.iter
  | compact => CompactionOverflows db
  | get _ | workerPass | reopen => False

theorem searchTables_ne_panic (key : Key) (tables : List (SsTable fmt)) {db after : Db fmt} :
    searchTables key tables db ≠ .error .panic after := by
  induction tables generalizing db with
  | nil =>
      intro impossible
      cases impossible
  | cons table rest ih =>
      rw [searchTables]
      split
      · exact ih
      · split
        · exact ih
        · dsimp only
          split
          · intro impossible
            cases impossible
          · intro impossible
            cases impossible
          · intro impossible
            cases impossible
          · exact ih

theorem get_ne_panic (key : Key) {db after : Db fmt} : get key db ≠ .error .panic after := by
  unfold get
  cases validateKey key with
  | error cause => exact nofun
  | ok _ =>
      cases db.engine.memtable.get key with
      | some entry => cases entry <;> exact nofun
      | none =>
          cases db.engine.immutable.bind (·.get key) with
          | some entry => cases entry <;> exact nofun
          | none => exact searchTables_ne_panic key _

theorem workerPass_ne_error {db after : Db fmt} {failure : Failure} :
    workerPass db ≠ .error failure after := by
  unfold workerPass
  split
  · exact nofun
  · dsimp only
    split <;> exact nofun

theorem drain_ne_error (requests : Nat) {db after : Db fmt} {failure : Failure} :
    drain requests db ≠ .error failure after := by
  induction requests generalizing db with
  | zero => exact nofun
  | succ requests ih =>
      intro failed
      rcases bind_eq_error.mp failed with impossible | ⟨_, _, _, failed⟩
      · exact workerPass_ne_error impossible
      · exact ih failed

/-! ## Closing and opening with other options -/

/-- Closes the database and opens it again with the given options. -/
def reopenWith (options : Options) : Action fmt Unit := do
  shutdown
  let db ← current
  match openWith options db.disk with
  | .error failure => throw failure
  | .ok engine => set { db with engine := engine }

/-- The number of levels is that of the options, and there is one. -/
def Db.Levelled (db : Db fmt) : Prop :=
  db.engine.version.levels.length = db.engine.options.maxLevels ∧ 1 ≤ db.engine.options.maxLevels

theorem Db.Alike.levelled {db after : Db fmt} (alike : db.Alike after) (levelled : db.Levelled) :
    after.Levelled := by
  rw [Db.Levelled, alike.1, alike.2]
  exact levelled

/-- Opening under options with a level. -/
theorem yields_opened {options : Options} (positive : 1 ≤ options.maxLevels) (db mid : Db fmt) :
    Yields
      (match openWith options db.disk with
        | .error failure => throw failure
        | .ok engine => set { db with engine := engine } : Action fmt Unit)
      mid (fun _ after => after.Levelled) (fun failure _ => failure ≠ .panic) := by
  obtain ⟨inRange, levels⟩ := openWith_levels options db.disk
  unfold Yields
  cases opened : openWith options db.disk with
  | error failure =>
      rw [opened] at inRange
      intro isPanic
      exact inRange positive (congrArg Except.error isPanic)
  | ok engine =>
      obtain ⟨isOptions, length⟩ := levels engine opened
      change engine.version.levels.length = engine.options.maxLevels ∧ 1 ≤ engine.options.maxLevels
      rw [isOptions]
      exact ⟨length, positive⟩

theorem yields_shutdown (db : Db fmt) :
    Yields shutdown db (fun _ after => db.Alike after) (fun failure _ => failure ≠ .panic) := by
  refine Yields.intro (fun closed => (effects_alike.shutdown db).ok closed) fun failed => ?_
  rcases bind_eq_error.mp failed with impossible | ⟨_, _, _, failed⟩
  · cases impossible
  · exact absurd failed (drain_ne_error _)

theorem yields_current (db : Db fmt) (Failed : Failure → Db fmt → Prop) :
    Yields current db (fun value after => value = db ∧ after = db) Failed :=
  ⟨rfl, rfl⟩

theorem reopenWith_levelled {options : Options} (positive : 1 ≤ options.maxLevels) (db : Db fmt) :
    Yields (reopenWith options) db (fun _ after => after.Levelled)
      (fun failure _ => failure ≠ .panic) := by
  refine (yields_shutdown db).bind fun _ mid _ => ?_
  refine (yields_current mid _).bind fun closed _ _ => ?_
  exact yields_opened positive closed _

theorem Db.Levelled.reopen {db : Db fmt} (levelled : db.Levelled) :
    Yields LsmStore.reopen db (fun _ after => after.Levelled)
      (fun failure _ => failure ≠ .panic) := by
  refine (yields_shutdown db).bind fun _ mid alike => ?_
  refine (yields_current mid _).bind fun closed _ same => ?_
  rw [same.1]
  exact yields_opened (alike.levelled levelled).2 mid _

/-! ## Commands -/

/-- A command from a state with levels leaves one, and panics only by overflow. -/
theorem Db.Levelled.action {db : Db fmt} (levelled : db.Levelled) (command : Command) :
    Yields command.action db (fun _ after => after.Levelled)
      (fun failure after =>
        (command ≠ .reopen → after.Levelled) ∧ (failure = .panic → command.Overflows db)) := by
  by_cases isReopen : command = .reopen
  · subst isReopen
    refine levelled.reopen.imp (fun _ _ done => done) fun failure after noPanic => ?_
    exact ⟨fun different => absurd rfl different, fun isPanic => absurd isPanic noPanic⟩
  · have moves := effects_alike.command isReopen db
    have present : 0 < db.engine.version.levels.length := levelled.1 ▸ levelled.2
    refine Yields.intro (fun done => (moves.ok done).levelled levelled) fun {failure after} failed => ?_
    refine ⟨fun _ => (moves.error failed).levelled levelled, ?_⟩
    rintro rfl
    cases command with
    | put key value =>
        change LsmStore.put key value db = _ at failed
        unfold LsmStore.put at failed
        split at failed
        · cases failed
        · split at failed
          · cases failed
          · exact write_panics present failed
    | delete key =>
        change LsmStore.delete key db = _ at failed
        unfold LsmStore.delete at failed
        split at failed
        · cases failed
        · exact write_panics present failed
    | get key =>
        change EStateM.map (Function.const _ ()) (LsmStore.get key) db = _ at failed
        unfold EStateM.map at failed
        split at failed
        · cases failed
        · rename_i panics
          cases failed
          exact get_ne_panic key panics
    | flush => exact flush_panics present failed
    | compact => exact compactOnce_panics present failed
    | workerPass => exact workerPass_ne_error failed
    | reopen => exact isReopen rfl

theorem Db.Levelled.planned {db : Db fmt} (levelled : db.Levelled) (plan : List Verdict) :
    (db.planned plan).Levelled := levelled

theorem Db.Levelled.attempt {db : Db fmt} (levelled : db.Levelled) (command : Command)
    (plan : List Verdict) :
    (∀ after, LsmStore.attempt command plan db = .ok after → after.Levelled) ∧
      (LsmStore.attempt command plan db = .error .panic → command.Overflows (db.planned plan)) := by
  have acts := (levelled.planned plan).action command
  unfold LsmStore.attempt execute
  cases ran : command.action (db.planned plan) with
  | ok _ after =>
      refine ⟨fun next isNext => ?_, nofun⟩
      cases isNext
      have stays := acts.ok ran
      exact stays
  | error failure after =>
      obtain ⟨stays, overflows⟩ := acts.error ran
      cases failure with
      | panic => exact ⟨nofun, fun _ => overflows rfl⟩
      | error cause =>
          dsimp only
          by_cases isReopen : command = .reopen
          · rw [if_pos isReopen]
            exact ⟨nofun, nofun⟩
          · rw [if_neg isReopen]
            refine ⟨fun next isNext => ?_, nofun⟩
            cases isNext
            exact stays isReopen

/-! ## Runs -/

/-- A call of a user: a command, whose file operations follow a plan, or a reopening with
options of its own. -/
inductive Call where
  | perform (command : Command) (plan : List Verdict)
  | reopenWith (options : Options) (plan : List Verdict)

namespace Call

/-- The state after a call. -/
def run (db : Db fmt) : Call → Except Failure (Db fmt)
  | perform command plan => attempt command plan db
  | reopenWith options plan =>
      match LsmStore.reopenWith options (db.planned plan) with
      | .ok () after => .ok (after.planned [])
      | .error failure _ => .error failure

/-- The state after a sequence of calls. -/
def runAll (calls : List Call) (db : Db fmt) : Except Failure (Db fmt) := calls.foldlM run db

/-- The options of a reopening have a level. -/
def HasLevels : Call → Prop
  | perform _ _ => True
  | reopenWith options _ => 1 ≤ options.maxLevels

/-- The arithmetic of the call overflows. -/
def Overflows (db : Db fmt) : Call → Prop
  | perform command _ => command.Overflows db
  | reopenWith _ _ => False

variable {db : Db fmt}

theorem run_levelled (levelled : db.Levelled) {call : Call} (hasLevels : call.HasLevels) :
    (∀ after, call.run db = .ok after → after.Levelled) ∧
      (call.run db = .error .panic → call.Overflows db) := by
  cases call with
  | perform command plan =>
      obtain ⟨stays, overflows⟩ := levelled.attempt command plan
      refine ⟨stays, fun panics => ?_⟩
      have planned := overflows panics
      cases command <;> exact planned
  | reopenWith options plan =>
      have reopens := reopenWith_levelled hasLevels (db.planned plan)
      cases ran : LsmStore.reopenWith options (db.planned plan) with
      | ok _ after =>
          have returned : (reopenWith options plan).run db = .ok (after.planned []) := by
            rw [run, ran]
          rw [returned]
          refine ⟨fun next isNext => ?_, nofun⟩
          cases isNext
          have stays := reopens.ok ran
          exact stays
      | error failure after =>
          have failed : (reopenWith options plan).run db = .error failure := by
            rw [run, ran]
          rw [failed]
          refine ⟨nofun, fun isPanic => ?_⟩
          cases isPanic
          exact reopens.error ran rfl

theorem runAll_levelled (levelled : db.Levelled) {calls : List Call}
    (hasLevels : ∀ call ∈ calls, call.HasLevels) {after : Db fmt}
    (ran : runAll calls db = .ok after) : after.Levelled := by
  induction calls generalizing db with
  | nil =>
      cases ran
      exact levelled
  | cons call rest ih =>
      obtain ⟨hasLevels, others⟩ := List.forall_mem_cons.mp hasLevels
      have unrolled : runAll (call :: rest) db = call.run db >>= runAll rest := List.foldlM_cons
      rw [unrolled] at ran
      cases first : call.run db with
      | error failure => rw [first] at ran; cases ran
      | ok next =>
          rw [first] at ran
          exact ih ((run_levelled levelled hasLevels).1 next first) others ran

end Call

/-- Every index into the levels of a version is in range, in a flush and in a compaction. -/
structure Version.IndicesInRange (version : Version fmt) : Prop where
  pushFront : ∀ table, ∃ version', version.pushFront table = .ok version'
  applyCompaction : ∀ job output, ∃ version', applyCompaction version job output = .ok version'

theorem Version.indicesInRange {version : Version fmt} (present : 0 < version.levels.length) :
    version.IndicesInRange := by
  constructor
  · intro table
    cases pushed : version.pushFront table with
    | error failure => exact absurd pushed (Version.pushFront_ne_error present table failure)
    | ok version' => exact ⟨version', rfl⟩
  · intro job output
    cases applied : LsmStore.applyCompaction version job output with
    | error failure => exact absurd applied (applyCompaction_ne_error present job output failure)
    | ok version' => exact ⟨version', rfl⟩

/-- **With a level in all options, every level index is in range.**  Opening any directory,
with any levels in its manifest, does not panic.  In every state that any sequence of calls
reaches, with file operations failing anywhere, the version has as many levels as the
options say, every index of a flush and of a compaction is in range, and the next call
panics only if its arithmetic overflows. -/
theorem level_indices_in_range (disk : Disk fmt) {options : Options}
    (positive : 1 ≤ options.maxLevels) {calls : List Call}
    (hasLevels : ∀ call ∈ calls, call.HasLevels) :
    openWith options disk ≠ .error .panic ∧
      ∀ engine, openWith options disk = .ok engine →
        ∀ db, Call.runAll calls ⟨disk, engine, []⟩ = .ok db →
          db.engine.version.levels.length = db.engine.options.maxLevels ∧
          db.engine.version.IndicesInRange ∧
          ∀ call : Call, call.HasLevels → call.run db = .error .panic → call.Overflows db := by
  obtain ⟨inRange, levels⟩ := openWith_levels options disk
  refine ⟨inRange positive, fun engine opened db ran => ?_⟩
  obtain ⟨isOptions, length⟩ := levels engine opened
  have start : Db.Levelled (⟨disk, engine, []⟩ : Db fmt) := by
    change engine.version.levels.length = engine.options.maxLevels ∧ 1 ≤ engine.options.maxLevels
    rw [isOptions]
    exact ⟨length, positive⟩
  have levelled := Call.runAll_levelled start hasLevels ran
  refine ⟨levelled.1, Version.indicesInRange (levelled.1 ▸ levelled.2), fun call allowed panics => ?_⟩
  exact (Call.run_levelled levelled allowed).2 panics

/-- A database with three levels is reopened with one. -/
def shrinkingCalls : List Call :=
  [.perform (.put [1] [2]) [], .perform .flush [], .perform .compact [],
    .reopenWith (eagerOptions 1) [], .perform (.put [3] [4]) [], .perform .flush []]

theorem shrinkingCalls_return :
    ((Call.runAll shrinkingCalls (Db.new smallTables (eagerOptions 3))).toOption.map fun db =>
      db.engine.version.levels.map List.length) = some [2] := by
  decide +kernel

/-- A flush and a compaction with three levels, and a flush after a reopening with one. -/
theorem level_indices_in_range_shrinking :
    ∃ db : Db smallTables,
      Call.runAll shrinkingCalls (Db.new smallTables (eagerOptions 3)) = .ok db ∧
      db.engine.version.levels.length = db.engine.options.maxLevels ∧
      db.engine.version.IndicesInRange := by
  have returns := shrinkingCalls_return
  cases ran : Call.runAll shrinkingCalls (Db.new smallTables (eagerOptions 3)) with
  | error failure => rw [ran] at returns; cases returns
  | ok db =>
      have levels : ∀ call ∈ shrinkingCalls, call.HasLevels := by
        simp [shrinkingCalls, Call.HasLevels, eagerOptions]
      obtain ⟨length, inRange, _⟩ := (level_indices_in_range (Disk.empty smallTables)
        (show 1 ≤ (eagerOptions 3).maxLevels by decide) levels).2 _
        (openWith_empty smallTables (eagerOptions 3)) db ran
      exact ⟨db, rfl, length, inRange⟩

/-- **Options without levels open an empty directory, and the first flush panics.** -/
theorem flush_without_levels :
    ∃ db after : Db smallTables, openNew smallTables (eagerOptions 0) = .ok db ∧
      Call.runAll [.perform (.put [1] [2]) []] db = .ok after ∧
      (Call.perform .flush []).run after = .error .panic ∧
      ¬ (Call.perform .flush []).Overflows after := by
  refine ⟨_, _, openNew_eq smallTables (eagerOptions 0), rfl, rfl, ?_⟩
  rintro (full | refused)
  · exact full (by decide +kernel)
  · cases refused

end LsmStore
