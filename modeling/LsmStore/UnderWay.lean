import LsmStore.Interleaving

/-!
# Operations under way

`Orderly` says how a database and the operations under way in it fit together: the
jobs in flight may still be installed, the tables under way hold what they should
and own their ids, and reads return what they should.  Each stage of a pass and of
a flush has its own condition (`PassOk`, `FlushOk`); the frame lemmas say which
changes of the database leave these conditions alone.
-/

set_option autoImplicit false

namespace LsmStore

open Foundation

variable {fmt : TableFormat}

/-! ## Databases between two steps -/

/-- What holds of a database at any time, whatever is under way in it. -/
structure WellKept (sound : fmt.Sound fun _ _ => True) (db : Db fmt) : Prop where
  positive : 1 ≤ db.engine.options.maxLevels
  depth : db.engine.version.levels.length = db.engine.options.maxLevels
  stocked : Stocked sound db.disk.sst db.engine.version
  sorted : LevelsSorted db.engine.version
  keyed : ∀ pair ∈ db.engine.memtable.iter, pair.1 ≠ []
  unused : ∀ id : UInt64, db.engine.manifest.nextTableId.toNat ≤ id.toNat → db.disk.sst id = none
  listed : ∀ id : UInt64, db.engine.manifest.lists id = true →
    id.toNat < db.engine.manifest.nextTableId.toNat
  coherent : sound.Coherent db.disk.sst db.engine.cache
  noFaults : db.faults = []

namespace Db

variable (db : Db fmt)

/-- The database after an id has been allocated. -/
def allocated : Db fmt :=
  { db with
    disk :=
      { db.disk with
        manifest := db.disk.manifest ++
          (ManifestRecord.setNextTableId (db.engine.manifest.nextTableId + 1)).encode }
    engine := { db.engine with manifest := db.engine.manifest.allocated } }

/-- The database after a table file has been written. -/
def created (id : UInt64) (file : fmt.File) : Db fmt :=
  { db with disk := db.disk.withTable id file }

/-- The database after a table has been entered into the manifest and others have
been removed from it. -/
def recorded (id : UInt64) (level : UInt32) (gone : List UInt64) : Db fmt :=
  { db with
    disk :=
      { db.disk with
        manifest := db.disk.manifest ++ (ManifestRecord.addTable id level).encode ++
          manifestLog (gone.map .removeTable) }
    engine := { db.engine with manifest := (db.engine.manifest.added id level).removed gone } }

/-- The database with another version. -/
def withVersion (version : Version fmt) : Db fmt :=
  { db with engine := { db.engine with version := version } }

/-- The database after its memtable has been frozen. -/
def frozen : Db fmt :=
  { db with
    engine :=
      { db.engine with
        memtable := MemTable.new
        immutable := some (MemTable.ofRun db.engine.memtable.iter) } }

end Db

section Actions

variable {db : Db fmt}

theorem nextTableId_eq (noFaults : db.faults = []) (room : Roomy db) :
    nextTableId db = .ok db.engine.manifest.nextTableId db.allocated := by
  obtain ⟨disk, engine, faults⟩ := db
  obtain rfl : faults = [] := noFaults
  exact nextTableId_noFaults room

theorem createTable_eq (noFaults : db.faults = []) (id : UInt64) {entries : List (Key × Entry)}
    {file : fmt.File} {handle : fmt.Handle}
    (made : fmt.create db.engine.options entries = .ok (file, handle)) :
    createTable id entries db = .ok ⟨id, handle⟩ (db.created id file) := by
  obtain ⟨disk, engine, faults⟩ := db
  obtain rfl : faults = [] := noFaults
  exact createTable_noFaults made

theorem recordCompaction_eq (noFaults : db.faults = []) {id : UInt64} (job : CompactionJob fmt)
    (unlisted : db.engine.manifest.lists id = false) :
    recordCompaction id job db =
      .ok () (db.recorded id (UInt32.ofNat job.outputLevel) (job.inputs.map SsTable.id)) := by
  obtain ⟨disk, engine, faults⟩ := db
  obtain rfl : faults = [] := noFaults
  exact bind_eq_ok.mpr ⟨_, _, addTable_noFaults unlisted, removeTables_noFaults _ _ _⟩

theorem addTable_eq (noFaults : db.faults = []) {id : UInt64} (level : UInt32)
    (unlisted : db.engine.manifest.lists id = false) :
    addTable id level db = .ok () (db.recorded id level []) := by
  obtain ⟨disk, engine, faults⟩ := db
  obtain rfl : faults = [] := noFaults
  refine (addTable_noFaults unlisted).trans ?_
  simp [Db.recorded, manifestLog, Manifest.removed_nil]

theorem pushFront_eq {table : SsTable fmt} {version : Version fmt}
    (pushed : db.engine.version.pushFront table = .ok version) :
    pushFront table db = .ok () (db.withVersion version) := by
  unfold pushFront
  rw [pushed]
  rfl

theorem installCompaction_eq {job : CompactionJob fmt}
    (inside : job.outputLevel < db.engine.version.levels.length) (output : SsTable fmt) :
    installCompaction job output db =
      .ok () (db.withVersion (installed db.engine.version job output)) := by
  unfold installCompaction
  rw [applyCompaction_eq inside]
  rfl

theorem logAndApply_eq (noFaults : db.faults = []) {operation : Operation}
    (fits : operation.Fits) : logAndApply operation db = .ok () (db.written operation) := by
  obtain ⟨disk, engine, faults⟩ := db
  obtain rfl : faults = [] := noFaults
  exact bind_of_ok (walAppend_noFaults fits disk engine)

end Actions

namespace WellKept

variable {sound : fmt.Sound fun _ _ => True} {db : Db fmt}

theorem fresh (kept : WellKept sound db) :
    ∀ table ∈ db.engine.version.tablesNewestFirst,
      table.id ≠ db.engine.manifest.nextTableId := by
  intro table member same
  obtain ⟨file, present, _⟩ := kept.stocked.held table member
  rw [kept.unused table.id (by rw [same])] at present
  cases present

theorem unlisted_next (kept : WellKept sound db) :
    db.engine.manifest.lists db.engine.manifest.nextTableId = false := by
  by_contra isListed
  have below := kept.listed _ (by simpa using isListed)
  omega

theorem written (kept : WellKept sound db) {operation : Operation} (keyed : operation.key ≠ []) :
    WellKept sound (db.written operation) := by
  refine { kept with keyed := ?_ }
  intro pair member
  have found := (apply db.engine.memtable operation).iter_sorted.valueAt_of_mem member
  rw [MemTable.valueAt_iter, get_apply] at found
  split at found
  · rename_i same
    rw [same]
    exact keyed
  · exact kept.keyed pair (mem_of_valueAt found)

theorem allocated (kept : WellKept sound db) (room : Roomy db) : WellKept sound db.allocated := by
  have next : db.allocated.engine.manifest.nextTableId.toNat =
      db.engine.manifest.nextTableId.toNat + 1 := toNat_succ room
  refine { kept with unused := ?_, listed := ?_ }
  · intro id beyond
    rw [next] at beyond
    exact kept.unused id (by omega)
  · intro id isListed
    rw [next]
    have below := kept.listed id isListed
    omega

/-- A file under an id that was allocated and not used. -/
theorem created (kept : WellKept sound db) {id : UInt64} (blank : db.disk.sst id = none)
    (below : id.toNat < db.engine.manifest.nextTableId.toNat)
    (outside : ∀ table ∈ db.engine.version.tablesNewestFirst, table.id ≠ id) (file : fmt.File) :
    WellKept sound (db.created id file) := by
  refine
    { kept with
      stocked := kept.stocked.update outside file
      unused := ?_
      coherent := sound.coherent_create id file kept.coherent blank }
  intro other beyond
  have different : other ≠ id := by
    rintro rfl
    exact absurd beyond (Nat.not_le.mpr below)
  exact (Function.update_of_ne different _ _).trans (kept.unused other beyond)

theorem recorded (kept : WellKept sound db) {id : UInt64}
    (below : id.toNat < db.engine.manifest.nextTableId.toNat) (level : UInt32)
    (gone : List UInt64) : WellKept sound (db.recorded id level gone) := by
  refine { kept with listed := ?_ }
  intro other isListed
  obtain ⟨place, member⟩ := List.mem_map.mp (Manifest.lists_iff.mp isListed)
  obtain ⟨inAdded, same⟩ := member
  rcases List.mem_append.mp (List.mem_of_mem_filter inAdded) with old | new
  · exact kept.listed other (Manifest.lists_iff.mpr (List.mem_map.mpr ⟨place, old, same⟩))
  · rw [← same, List.mem_singleton.mp new]
    exact below

theorem pushed (kept : WellKept sound db) {table : SsTable fmt} {version : Version fmt}
    (held : Held sound db.disk.sst table)
    (outside : ∀ other ∈ db.engine.version.tablesNewestFirst, other.id ≠ table.id)
    (pushed : db.engine.version.pushFront table = .ok version) :
    WellKept sound (db.withVersion version) :=
  { kept with
    depth := (pushFront_eq_ok pushed).2.1.trans kept.depth
    stocked := kept.stocked.pushFront held outside pushed
    sorted := kept.sorted.pushFront pushed }

theorem installed (kept : WellKept sound db) {job : CompactionJob fmt} {drops : Bool}
    {output : SsTable fmt}
    (admissible : Admissible (entriesOn db.disk.sst) db.engine.version job drops)
    (merges : Merges (entriesOn db.disk.sst) job drops output)
    (held : Held sound db.disk.sst output)
    (outside : ∀ table ∈ db.engine.version.tablesNewestFirst, table.id ≠ output.id) :
    WellKept sound (db.withVersion (LsmStore.installed db.engine.version job output)) :=
  { kept with
    depth := (length_levels_installed _ _ _).trans kept.depth
    stocked := kept.stocked.install admissible merges held outside
    sorted := admissible.levelsSorted_installed kept.sorted }

end WellKept

/-! ## Jobs and tables under way -/

/-- The job may be installed in the current version, and the pass that runs it
still owns its inputs. -/
structure Ready (db : Db fmt) (snapshot : Version fmt) (job : CompactionJob fmt) : Prop where
  admissible : Admissible (entriesOn db.disk.sst) db.engine.version job
    (dropTombstones snapshot db.engine.options job)
  owned : ∀ input ∈ job.inputs, input ∈ snapshot.tablesNewestFirst

/-- The output of the job is written. -/
structure Finished (sound : fmt.Sound fun _ _ => True) (db : Db fmt) (snapshot : Version fmt)
    (job : CompactionJob fmt) (output : SsTable fmt) : Prop where
  held : Held sound db.disk.sst output
  merges : Merges (entriesOn db.disk.sst) job (dropTombstones snapshot db.engine.options job) output

/-- What holds at each stage of a pass. -/
def PassOk (sound : fmt.Sound fun _ _ => True) (db : Db fmt) : Pass fmt → Prop
  | .idle => True
  | .picked snapshot job => Ready db snapshot job
  | .allocated snapshot job outputId =>
      Ready db snapshot job ∧ db.disk.sst outputId = none ∧
        db.engine.manifest.lists outputId = false
  | .written snapshot job output =>
      Ready db snapshot job ∧ Finished sound db snapshot job output ∧
        db.engine.manifest.lists output.id = false
  | .recorded snapshot job output =>
      Ready db snapshot job ∧ Finished sound db snapshot job output

/-- The frozen memtable is the copy of a valid run. -/
structure Frozen (db : Db fmt) (snapshot : List (Key × Entry)) : Prop where
  immutable : db.engine.immutable = some (MemTable.ofRun snapshot)
  valid : ValidRun snapshot

/-- The table of a flush is written. -/
structure Flushed (sound : fmt.Sound fun _ _ => True) (db : Db fmt)
    (snapshot : List (Key × Entry)) (table : SsTable fmt) : Prop where
  held : Held sound db.disk.sst table
  entries : entriesOn db.disk.sst table = snapshot

/-- The tables give what the frozen memtable gives. -/
def Covered (db : Db fmt) (snapshot : List (Key × Entry)) : Prop :=
  ∀ key entry, valueAt snapshot key = some entry →
    visible (db.tableLookup key) = visible (some entry)

/-- What holds at each stage of a flush. -/
def FlushOk (sound : fmt.Sound fun _ _ => True) (db : Db fmt) : Flush fmt → Prop
  | .idle => db.engine.immutable = none
  | .frozen snapshot => Frozen db snapshot
  | .allocated snapshot tableId =>
      Frozen db snapshot ∧ db.disk.sst tableId = none ∧ db.engine.manifest.lists tableId = false
  | .written snapshot table =>
      Frozen db snapshot ∧ Flushed sound db snapshot table ∧
        db.engine.manifest.lists table.id = false
  | .recorded snapshot table => Frozen db snapshot ∧ Flushed sound db snapshot table
  | .installed snapshot | .truncated snapshot => Frozen db snapshot ∧ Covered db snapshot

section Frames

variable {sound : fmt.Sound fun _ _ => True} {db db' : Db fmt}

theorem Ready.frame {snapshot : Version fmt} {job : CompactionJob fmt}
    (ready : Ready db snapshot job) (options : db'.engine.options = db.engine.options)
    (version : db'.engine.version = db.engine.version)
    (files : ∀ table ∈ db.engine.version.tablesNewestFirst,
      db'.disk.sst table.id = db.disk.sst table.id) : Ready db' snapshot job := by
  refine ⟨?_, ready.owned⟩
  rw [version, options]
  exact ready.admissible.congr fun table member => entriesOn_congr (files table member)

theorem Finished.frame {snapshot : Version fmt} {job : CompactionJob fmt} {output : SsTable fmt}
    (finished : Finished sound db snapshot job output) (ready : Ready db snapshot job)
    (options : db'.engine.options = db.engine.options)
    (files : ∀ table ∈ db.engine.version.tablesNewestFirst,
      db'.disk.sst table.id = db.disk.sst table.id)
    (own : db'.disk.sst output.id = db.disk.sst output.id) :
    Finished sound db' snapshot job output := by
  refine ⟨finished.held.congr own, ?_⟩
  intro key
  have inputs : lookupIn (entriesOn db'.disk.sst) job.inputs key =
      lookupIn (entriesOn db.disk.sst) job.inputs key := by
    refine lookupIn_congr ?_ key
    intro input isInput
    exact entriesOn_congr (files input (ready.admissible.inputs_mem isInput))
  rw [options, inputs, entryIn, entriesOn_congr own]
  exact finished.merges key

/-- A change that leaves the version, its files and a pass's own id alone leaves the
pass as it is. -/
theorem PassOk.frame {pass : Pass fmt} (ok : PassOk sound db pass)
    (options : db'.engine.options = db.engine.options)
    (version : db'.engine.version = db.engine.version)
    (files : ∀ table ∈ db.engine.version.tablesNewestFirst,
      db'.disk.sst table.id = db.disk.sst table.id)
    (own : ∀ id, pass.id = some id → db'.disk.sst id = db.disk.sst id ∧
      (db.engine.manifest.lists id = false → db'.engine.manifest.lists id = false)) :
    PassOk sound db' pass := by
  cases pass with
  | idle => trivial
  | picked snapshot job => exact Ready.frame ok options version files
  | allocated snapshot job outputId =>
      obtain ⟨ready, blank, unlisted⟩ := ok
      obtain ⟨sameFile, stays⟩ := own outputId rfl
      exact ⟨ready.frame options version files, sameFile.trans blank, stays unlisted⟩
  | written snapshot job output =>
      obtain ⟨ready, finished, unlisted⟩ := ok
      obtain ⟨sameFile, stays⟩ := own output.id rfl
      exact ⟨ready.frame options version files, finished.frame ready options files sameFile,
        stays unlisted⟩
  | recorded snapshot job output =>
      obtain ⟨ready, finished⟩ := ok
      exact ⟨ready.frame options version files,
        finished.frame ready options files (own output.id rfl).1⟩

/-- A change of the version that keeps the job of a pass ready. -/
theorem PassOk.withVersion {pass : Pass fmt} (ok : PassOk sound db pass) {version : Version fmt}
    (ready : ∀ snapshot job, pass.task = some (snapshot, job) → Ready db snapshot job →
      Ready (db.withVersion version) snapshot job) :
    PassOk sound (db.withVersion version) pass := by
  cases pass with
  | idle => trivial
  | picked snapshot job => exact ready snapshot job rfl ok
  | allocated snapshot job outputId => exact ⟨ready snapshot job rfl ok.1, ok.2⟩
  | written snapshot job output =>
      exact ⟨ready snapshot job rfl ok.1, ⟨ok.2.1.held, ok.2.1.merges⟩, ok.2.2⟩
  | recorded snapshot job output =>
      exact ⟨ready snapshot job rfl ok.1, ⟨ok.2.held, ok.2.merges⟩⟩

/-- A change that leaves the frozen memtable, the lookups and a flush's own id alone
leaves the flush as it is. -/
theorem FlushOk.frame {flush : Flush fmt} (ok : FlushOk sound db flush)
    (immutable : db'.engine.immutable = db.engine.immutable)
    (lookups : ∀ key, visible (db'.tableLookup key) = visible (db.tableLookup key))
    (own : ∀ id, flush.id = some id → db'.disk.sst id = db.disk.sst id ∧
      (db.engine.manifest.lists id = false → db'.engine.manifest.lists id = false)) :
    FlushOk sound db' flush := by
  have frozen : ∀ {snapshot}, Frozen db snapshot → Frozen db' snapshot :=
    fun frozen => ⟨immutable.trans frozen.immutable, frozen.valid⟩
  have flushed : ∀ {snapshot} {table : SsTable fmt}, db'.disk.sst table.id = db.disk.sst table.id →
      Flushed sound db snapshot table → Flushed sound db' snapshot table :=
    fun sameFile flushed =>
      ⟨flushed.held.congr sameFile, (entriesOn_congr sameFile).trans flushed.entries⟩
  have covered : ∀ {snapshot}, Covered db snapshot → Covered db' snapshot :=
    fun covered key entry found => (lookups key).trans (covered key entry found)
  cases flush with
  | idle => exact immutable.trans ok
  | frozen snapshot => exact frozen ok
  | allocated snapshot tableId =>
      obtain ⟨sameFile, stays⟩ := own tableId rfl
      exact ⟨frozen ok.1, sameFile.trans ok.2.1, stays ok.2.2⟩
  | written snapshot table =>
      obtain ⟨sameFile, stays⟩ := own table.id rfl
      exact ⟨frozen ok.1, flushed sameFile ok.2.1, stays ok.2.2⟩
  | recorded snapshot table => exact ⟨frozen ok.1, flushed (own table.id rfl).1 ok.2⟩
  | installed snapshot => exact ⟨frozen ok.1, covered ok.2⟩
  | truncated snapshot => exact ⟨frozen ok.1, covered ok.2⟩

end Frames

/-! ## Reserved ids -/

/-- Who may own an id that is not yet in the version: the flush, or a thread. -/
abbrev Owner : Type := Option Thread

/-- The ids of the tables under way. -/
def State.idOf (state : State fmt) : Owner → Option UInt64
  | none => state.flush.id
  | some thread => (state.passes thread).id

theorem State.idOf_flush (state : State fmt) (db : Db fmt) (flush : Flush fmt) :
    State.idOf { state with db := db, flush := flush } =
      Function.update state.idOf none flush.id := by
  funext owner
  cases owner with
  | none => rw [Function.update_self]; rfl
  | some thread => rw [Function.update_of_ne (Option.some_ne_none thread)]; rfl

theorem State.idOf_pass (state : State fmt) (db : Db fmt) (thread : Thread) (pass : Pass fmt) :
    State.idOf { state with db := db, passes := Function.update state.passes thread pass } =
      Function.update state.idOf (some thread) pass.id := by
  funext owner
  cases owner with
  | none => rw [Function.update_of_ne (Option.some_ne_none thread).symm]; rfl
  | some other =>
      by_cases same : other = thread
      · subst same
        simp only [State.idOf, Function.update_self]
      · rw [Function.update_of_ne (by simpa using same)]
        simp only [State.idOf, Function.update_of_ne same]

theorem State.idOf_flush_same (state : State fmt) (db : Db fmt) {flush : Flush fmt}
    (same : flush.id = state.flush.id) :
    State.idOf { state with db := db, flush := flush } = state.idOf := by
  rw [State.idOf_flush, same]
  exact Function.update_eq_self none state.idOf

theorem State.idOf_pass_same (state : State fmt) (db : Db fmt) {thread : Thread} {pass : Pass fmt}
    (same : pass.id = (state.passes thread).id) :
    State.idOf { state with db := db, passes := Function.update state.passes thread pass } =
      state.idOf := by
  rw [State.idOf_pass, same]
  exact Function.update_eq_self (some thread) state.idOf

/-- The ids of the tables under way were allocated, are not in the version, and
belong to one owner each. -/
structure Reserved (ids : Owner → Option UInt64) (next : UInt64) (version : Version fmt) :
    Prop where
  below : ∀ owner id, ids owner = some id → id.toNat < next.toNat
  outside : ∀ owner id, ids owner = some id → ∀ table ∈ version.tablesNewestFirst, table.id ≠ id
  unique : ∀ owner owner' id, ids owner = some id → ids owner' = some id → owner = owner'

namespace Reserved

variable {ids : Owner → Option UInt64} {next : UInt64} {version version' : Version fmt}

/-- A newly allocated id. -/
theorem reserve (reserved : Reserved ids next version) (room : next.toNat + 1 ≤ u64Max)
    (fresh : ∀ table ∈ version.tablesNewestFirst, table.id ≠ next) (owner : Owner) :
    Reserved (Function.update ids owner (some next)) (next + 1) version := by
  have cases_ : ∀ other id, Function.update ids owner (some next) other = some id →
      other = owner ∧ id = next ∨ ids other = some id ∧ id.toNat < next.toNat := by
    intro other id isId
    rw [Function.update_apply] at isId
    split at isId
    · rename_i same
      exact .inl ⟨same, (Option.some.inj isId).symm⟩
    · exact .inr ⟨isId, reserved.below other id isId⟩
  refine ⟨?_, ?_, ?_⟩
  · intro other id isId
    rw [toNat_succ room]
    rcases cases_ other id isId with ⟨_, rfl⟩ | ⟨_, below⟩ <;> omega
  · intro other id isId
    rcases cases_ other id isId with ⟨_, rfl⟩ | ⟨old, _⟩
    · exact fresh
    · exact reserved.outside other id old
  · intro other other' id isId isId'
    rcases cases_ other id isId with ⟨rfl, rfl⟩ | ⟨old, below⟩
    · rcases cases_ other' id isId' with ⟨rfl, _⟩ | ⟨_, below⟩
      · rfl
      · omega
    · rcases cases_ other' id isId' with ⟨_, rfl⟩ | ⟨old', _⟩
      · omega
      · exact reserved.unique other other' id old old'

/-- An owner's table becomes part of the version. -/
theorem release (reserved : Reserved ids next version) {owner : Owner} {id : UInt64}
    (isId : ids owner = some id)
    (tables : ∀ table ∈ version'.tablesNewestFirst,
      table.id = id ∨ table ∈ version.tablesNewestFirst) :
    Reserved (Function.update ids owner none) next version' := by
  have old : ∀ other otherId, Function.update ids owner none other = some otherId →
      ids other = some otherId ∧ other ≠ owner := by
    intro other otherId isOther
    rw [Function.update_apply] at isOther
    split at isOther
    · cases isOther
    · rename_i different
      exact ⟨isOther, different⟩
  refine ⟨?_, ?_, ?_⟩
  · intro other otherId isOther
    exact reserved.below other otherId (old other otherId isOther).1
  · intro other otherId isOther table member same
    obtain ⟨isOld, different⟩ := old other otherId isOther
    rcases tables table member with isOwn | inVersion
    · rw [← same, isOwn] at isOld
      exact different (reserved.unique other owner id isOld isId)
    · exact reserved.outside other otherId isOld table inVersion same
  · intro other other' otherId isOther isOther'
    exact reserved.unique other other' otherId (old other otherId isOther).1
      (old other' otherId isOther').1

end Reserved

/-! ## Orderly states -/

/-- The jobs of the two threads are compatible. -/
def AllCompatible (passes : Thread → Pass fmt) : Prop :=
  ∀ thread snapshot job snapshot' job', (passes thread).task = some (snapshot, job) →
    (passes thread.other).task = some (snapshot', job') → Compatible job job'

theorem Thread.other_ne (thread : Thread) : thread.other ≠ thread := by
  cases thread <;> exact nofun

theorem Thread.eq_or_other (thread other : Thread) : other = thread ∨ other = thread.other := by
  cases thread <;> cases other <;> simp [Thread.other]

theorem Thread.other_other (thread : Thread) : thread.other.other = thread := by
  cases thread <;> rfl

theorem AllCompatible.update {passes : Thread → Pass fmt} {thread : Thread} {pass : Pass fmt}
    (compatible : ∀ snapshot job snapshot' job', pass.task = some (snapshot, job) →
      (passes thread.other).task = some (snapshot', job') → Compatible job job') :
    AllCompatible (Function.update passes thread pass) := by
  intro other snapshot job snapshot' job' isTask isTask'
  rcases thread.eq_or_other other with rfl | rfl
  · rw [Function.update_self] at isTask
    rw [Function.update_of_ne other.other_ne] at isTask'
    exact compatible snapshot job snapshot' job' isTask isTask'
  · rw [Function.update_of_ne thread.other_ne] at isTask
    rw [thread.other_other, Function.update_self] at isTask'
    exact (compatible snapshot' job' snapshot job isTask' isTask).symm

/-- How a database and the operations under way in it fit together; reads return
what is expected. -/
structure Orderly (sound : fmt.Sound fun _ _ => True) (expected : Key → Option Bytes)
    (state : State fmt) : Prop where
  kept : WellKept sound state.db
  reserved : Reserved state.idOf state.db.engine.manifest.nextTableId state.db.engine.version
  passing : ∀ thread, PassOk sound state.db (state.passes thread)
  compatible : AllCompatible state.passes
  flushing : FlushOk sound state.db state.flush
  reads : ∀ key, state.db.reading key = expected key

theorem orderly_start {sound : fmt.Sound fun _ _ => True} {db : Db fmt} (kept : WellKept sound db)
    (thawed : db.engine.immutable = none) : Orderly sound db.reading (State.start db) where
  kept := kept
  reserved := by
    have none_ : ∀ owner, (State.start db).idOf owner = none := by
      intro owner
      cases owner <;> rfl
    refine ⟨?_, ?_, ?_⟩
    · intro owner id isId
      rw [none_] at isId
      cases isId
    · intro owner id isId
      rw [none_] at isId
      cases isId
    · intro owner owner' id isId
      rw [none_] at isId
      cases isId
  passing _ := trivial
  compatible := by
    intro thread snapshot job snapshot' job' isTask
    cases isTask
  flushing := thawed
  reads _ := rfl

end LsmStore
