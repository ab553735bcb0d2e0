import LsmStore.Crashes
import LsmStore.Shelf

/-!
# Databases that keep what they are given

`Kept` says that the engine reads what is expected of it, and that its directory
would bring the same back.  The two may disagree about the tables: an append to the
manifest that failed may have left its record behind.

Each action of a flush keeps this, whether it succeeds or fails, from a state in
which manifest file and memory agree (`Stage`), and so does each action of a pass
until it edits the manifest.  `Kept.flushMemtable` and `Kept.compactOnce` put the
actions together.  Two conditions are needed.  The frozen memtable of an earlier
flush that failed must not be given up before the tables answer for it
(`Db.Covered`), and a pass must not fail once it has recorded its output
(`EditWhole`).
-/

set_option autoImplicit false

namespace LsmStore

open Foundation

variable {fmt : TableFormat} {Fits : Options → List (Key × Entry) → Prop}

/-! ## Plans -/

/-- The next verdict let the operation pass. -/
def Db.Passed (db db' : Db fmt) : Prop :=
  (db.faults = [] ∧ db'.faults = []) ∨ db.faults = .done :: db'.faults

/-- What is left of a clean plan is clean. -/
theorem Db.Passed.planned {db db' : Db fmt} (passed : db.Passed db') {clean : Prop}
    (planned : clean → ∀ verdict ∈ db.faults, verdict.Clean) (isClean : clean) :
    ∀ verdict ∈ db'.faults, verdict.Clean := by
  intro verdict member
  rcases passed with ⟨_, nothing⟩ | isPlan
  · rw [nothing] at member
    cases member
  · refine planned isClean verdict ?_
    rw [isPlan]
    exact List.mem_cons_of_mem _ member

theorem manifestAppend_passed {record : ManifestRecord} {db db' : Db fmt} {value : Unit}
    (done : manifestAppend record db = .ok value db') : db.Passed db' := by
  obtain ⟨disk, engine, faults⟩ := db
  cases faults with
  | nil => cases done; exact .inl ⟨rfl, rfl⟩
  | cons verdict rest =>
      cases verdict with
      | done => cases done; exact .inr rfl
      | fail progress => cases done

theorem nextTableId_passed {db db' : Db fmt} {id : UInt64} (done : nextTableId db = .ok id db') :
    db.Passed db' := by
  unfold nextTableId at done
  obtain ⟨_, _, isState, done⟩ := bind_eq_ok.mp done
  cases isState
  dsimp only at done
  split at done
  · obtain ⟨_, _, impossible, _⟩ := bind_eq_ok.mp done
    cases impossible
  · obtain ⟨_, _, changed, done⟩ := bind_eq_ok.mp done
    cases changed
    obtain ⟨_, _, appended, returned⟩ := bind_eq_ok.mp done
    have passed := manifestAppend_passed appended
    cases returned
    exact passed

theorem addTable_passed {id : UInt64} {level : UInt32} {db db' : Db fmt} {value : Unit}
    (done : addTable id level db = .ok value db') : db.Passed db' := by
  unfold addTable at done
  obtain ⟨_, _, isState, done⟩ := bind_eq_ok.mp done
  cases isState
  dsimp only at done
  split at done
  · obtain ⟨_, _, impossible, _⟩ := bind_eq_ok.mp done
    cases impossible
  · obtain ⟨_, _, appended, changed⟩ := bind_eq_ok.mp done
    have passed := manifestAppend_passed appended
    cases changed
    exact passed

theorem createTable_passed {id : UInt64} {entries : List (Key × Entry)} {db db' : Db fmt}
    {table : SsTable fmt} (done : createTable id entries db = .ok table db') : db.Passed db' := by
  obtain ⟨disk, engine, faults⟩ := db
  unfold createTable at done
  cases created : fmt.create engine.options entries with
  | error failure => rw [created] at done; cases done
  | ok made =>
      rw [created] at done
      cases faults with
      | nil => cases done; exact .inl ⟨rfl, rfl⟩
      | cons verdict rest =>
          cases verdict with
          | done => cases done; exact .inr rfl
          | fail progress =>
              match progress, done with
              | 0, done => cases done
              | 1, done => cases done
              | _ + 2, done => cases done

/-! ## Kept databases -/

/-- The engine reads what is expected, and the directory would bring it back. -/
structure Kept (sound : fmt.Sound Fits) (db : Db fmt) (expected : Key → Option Bytes)
    (shelf : Shelf fmt) : Prop where
  shelved : Shelved sound db.engine.options db.disk shelf
  depth : db.engine.version.levels.length = db.engine.options.maxLevels
  stocked : Stocked sound db.disk.sst db.engine.version
  mirrored : Mirrors db.engine.manifest.tables db.engine.version
  /-- Only level 0 may hold a table that the engine does not know of. -/
  deeper : ∀ depth, 1 ≤ depth → shelf.version.level depth = db.engine.version.level depth
  inStep : shelf.manifest.tables = db.engine.manifest.tables → shelf.version = db.engine.version
  used : ∀ id, db.disk.sst id ≠ none → id.toNat < shelf.manifest.nextTableId.toNat
  behind : shelf.manifest.nextTableId.toNat ≤ db.engine.manifest.nextTableId.toNat
  coherent : sound.Coherent db.disk.sst db.engine.cache
  logged : ∀ key entry, db.engine.memtable.get key = some entry →
    (applyAll shelf.operations).get key = some entry
  reads : ∀ key, db.reading key = expected key
  restores : ∀ key, shelf.reading db.disk.sst key = expected key
  /-- What is not in memory is in the tables on disk. -/
  settled : ∀ key, db.engine.memtable.get key = none →
    db.engine.immutable.bind (·.get key) = none →
      visible (shelf.tableLookup db.disk.sst key) = expected key

/-- A consistent database is kept. -/
theorem Consistent.kept {sound : fmt.Sound Fits} {db : Db fmt} (consistent : Consistent sound db) :
    ∃ shelf, Kept sound db db.reading shelf ∧
      shelf.manifest.tables = db.engine.manifest.tables ∧ Whole db.disk.manifest := by
  obtain ⟨records, isLog, replayed⟩ := consistent.recorded
  obtain ⟨operations, fit, isWal, isMemtable⟩ := consistent.logged
  have parked : ∀ key, db.engine.immutable.bind (·.get key) = none := by
    intro key
    rw [consistent.thawed]
    rfl
  refine ⟨⟨db.engine.manifest, db.engine.version, operations⟩, ?_, rfl, ?_⟩
  · exact
      { shelved :=
          { recorded := RecordsTo.of_records isLog replayed
            mirrored := consistent.mirrored
            positive := consistent.positive
            depth := consistent.depth
            stocked := consistent.stocked
            fit := fit
            logged := isWal }
        depth := consistent.depth
        stocked := consistent.stocked
        mirrored := consistent.mirrored
        deeper := fun _ _ => rfl
        inStep := fun _ => rfl
        used := by
          intro id present
          by_contra beyond
          exact present (consistent.unused id (Nat.le_of_not_lt beyond))
        behind := le_refl _
        coherent := consistent.coherent
        logged := by
          intro key entry found
          rwa [isMemtable] at found
        reads := fun _ => rfl
        restores := by
          intro key
          unfold Shelf.reading Db.reading
          rw [isMemtable, parked key, Option.none_or]
          rfl
        settled := by
          intro key absent _
          unfold Db.reading
          rw [absent, parked key]
          rfl }
  · rw [isLog]
    exact whole_manifestLog records

namespace Kept

variable {sound : fmt.Sound Fits} {db : Db fmt} {expected : Key → Option Bytes} {shelf : Shelf fmt}

/-- Files appear only below the next id of either manifest. -/
theorem unused (kept : Kept sound db expected shelf) {id : UInt64}
    (beyond : db.engine.manifest.nextTableId.toNat ≤ id.toNat) : db.disk.sst id = none := by
  by_contra present
  have below := kept.used id present
  have behind := kept.behind
  omega

theorem fresh_of_unused {files : UInt64 → Option fmt.File} {version : Version fmt}
    (stocked : Stocked sound files version) {id : UInt64} (absent : files id = none) :
    ∀ table ∈ version.tablesNewestFirst, table.id ≠ id := by
  intro table member same
  obtain ⟨file, present, _⟩ := stocked.held table member
  rw [same, absent] at present
  cases present

theorem validRun (kept : Kept sound db expected shelf) : ValidRun db.engine.memtable.iter := by
  have keys := applyAll_keys fun operation member => (kept.shelved.fit operation member).2
  refine validRun_memtable fun pair member => ?_
  have found := db.engine.memtable.iter_sorted.valueAt_of_mem member
  rw [MemTable.valueAt_iter] at found
  have logged := kept.logged pair.1 pair.2 found
  rw [← MemTable.valueAt_iter] at logged
  exact keys (pair.1, pair.2) (mem_of_valueAt logged)

theorem levels_ne_nil (kept : Kept sound db expected shelf) : db.engine.version.levels ≠ [] := by
  intro nothing
  have depth := kept.depth
  have positive := kept.shelved.positive
  rw [nothing, List.length_nil] at depth
  omega

/-- **A kept database restores**: opening its directory succeeds, and the reopened
engine is kept as well. -/
theorem reopened (kept : Kept sound db expected shelf) (fit : LevelsFit db.engine.version)
    (faults : List Verdict) :
    ∃ engine shelf', openWith db.engine.options db.disk = .ok engine ∧
      Kept sound ⟨db.disk, engine, faults⟩ expected shelf' ∧
      shelf'.manifest.tables = engine.manifest.tables := by
  have shelved := kept.shelved
  have shelfFit : LevelsFit shelf.version := by
    intro depth beyond
    rw [kept.deeper depth (le_trans (by decide) beyond)]
    exact fit depth beyond
  obtain ⟨placed, places, listed, opened⟩ := shelved.openWith_eq shelfFit
  have positive : 1 ≤ shelf.version.levels.length := by
    rw [shelved.depth]
    exact shelved.positive
  have rearranged := places.rearranged shelfFit positive
  have placed' := places.rebuilt shelfFit positive
  rw [shelved.depth] at rearranged placed'
  have stocked := rearranged.stocked shelved.stocked
  have tables := rearranged.lookupIn_eq shelved.stocked.levelled
  have restores : ∀ key, visible (((applyAll shelf.operations).get key).or
      (lookupIn (entriesOn db.disk.sst)
        (rebuilt db.engine.options.maxLevels placed).tablesNewestFirst key)) = expected key := by
    intro key
    rw [tables key]
    exact kept.restores key
  refine ⟨_, ⟨shelf.manifest, rebuilt db.engine.options.maxLevels placed, shelf.operations⟩,
    opened, ?_, rfl⟩
  exact
    { shelved :=
        { recorded := shelved.recorded
          mirrored := ⟨placed, placed', listed⟩
          positive := shelved.positive
          depth := length_levels_rebuilt
          stocked := stocked
          fit := shelved.fit
          logged := shelved.logged }
      depth := length_levels_rebuilt
      stocked := stocked
      mirrored := ⟨placed, placed', listed⟩
      deeper := fun _ _ => rfl
      inStep := fun _ => rfl
      used := kept.used
      behind := le_refl _
      coherent := sound.coherent_empty _ _
      logged := fun _ _ found => found
      reads := restores
      restores := restores
      settled := by
        intro key absent _
        have restored := restores key
        change (applyAll shelf.operations).get key = none at absent
        rwa [absent] at restored }

/-- Reads of the running engine. -/
theorem eval_get (kept : Kept sound db expected shelf) {key : Key}
    (valid : validateKey key = .ok ()) : db.eval (get key) = .ok (expected key) := by
  rw [LsmStore.eval_get sound kept.stocked.held kept.coherent valid, kept.reads key]

/-- Every read of the reopened engine returns what is expected. -/
theorem reopens (kept : Kept sound db expected shelf) (fit : LevelsFit db.engine.version) :
    ∃ engine, openWith db.engine.options db.disk = .ok engine ∧
      ∀ key, validateKey key = .ok () →
        (⟨db.disk, engine, []⟩ : Db fmt).eval (get key) = .ok (expected key) := by
  obtain ⟨engine, shelf', opened, kept', _⟩ := kept.reopened fit []
  exact ⟨engine, opened, fun key valid => kept'.eval_get valid⟩

/-! ### Changes that keep a database -/

/-- Other manifests, in the file and in memory, that list the same tables. -/
theorem withManifest (kept : Kept sound db expected shelf) {bytes : Bytes}
    {durable : Manifest} (memory : Manifest) (recorded : RecordsTo bytes durable)
    (sameDurable : durable.tables = shelf.manifest.tables)
    (sameMemory : memory.tables = db.engine.manifest.tables)
    (grown : shelf.manifest.nextTableId.toNat ≤ durable.nextTableId.toNat)
    (behind : durable.nextTableId.toNat ≤ memory.nextTableId.toNat) (faults : List Verdict) :
    Kept sound ⟨{ db.disk with manifest := bytes }, { db.engine with manifest := memory }, faults⟩
      expected { shelf with manifest := durable } :=
  { kept with
    shelved :=
      { kept.shelved with
        recorded := recorded
        mirrored := by rw [sameDurable]; exact kept.shelved.mirrored }
    mirrored := by rw [sameMemory]; exact kept.mirrored
    inStep := fun same => kept.inStep (sameDurable.symm.trans (same.trans sameMemory))
    used := fun id present => lt_of_lt_of_le (kept.used id present) grown
    behind := behind }

/-- A new file under an allocated id. -/
theorem withTable (kept : Kept sound db expected shelf) {id : UInt64}
    (absent : db.disk.sst id = none) (below : id.toNat < shelf.manifest.nextTableId.toNat)
    (file : fmt.File) (faults : List Verdict) :
    Kept sound ⟨db.disk.withTable id file, db.engine, faults⟩ expected shelf := by
  have fresh := fresh_of_unused kept.stocked absent
  have freshShelf := fresh_of_unused kept.shelved.stocked absent
  have tables : ∀ key, shelf.tableLookup (Function.update db.disk.sst id (some file)) key =
      shelf.tableLookup db.disk.sst key :=
    fun key => lookupIn_congr (Stocked.entriesOn_update db.disk.sst freshShelf file) key
  exact
    { kept with
      shelved := { kept.shelved with stocked := kept.shelved.stocked.update freshShelf file }
      stocked := kept.stocked.update fresh file
      used := by
        intro other present
        by_cases same : other = id
        · rw [same]
          exact below
        · refine kept.used other ?_
          change Function.update db.disk.sst id (some file) other ≠ none at present
          rwa [Function.update_of_ne same] at present
      coherent := sound.coherent_create id file kept.coherent absent
      reads := by
        intro key
        rw [← kept.reads key]
        refine Db.reading_congr rfl rfl (congrArg visible ?_)
        exact lookupIn_congr (Stocked.entriesOn_update db.disk.sst fresh file) key
      restores := by
        intro key
        rw [← kept.restores key]
        exact congrArg (fun found => visible (((applyAll shelf.operations).get key).or found))
          (tables key)
      settled := by
        intro key absent parked
        refine Eq.trans ?_ (kept.settled key absent parked)
        exact congrArg visible (tables key) }

end Kept

/-! ## A flush under way -/

/-- The manifest file holds complete records, and it lists what the manifest in
memory lists. -/
def Db.InStep (db : Db fmt) : Prop :=
  Whole db.disk.manifest ∧
    (Manifest.recover db.disk.manifest).map (·.tables) = .ok db.engine.manifest.tables

/-- What only the parked memtable of a failed flush holds is read from the tables
as well. -/
def Db.Covered (db : Db fmt) : Prop :=
  ∀ key entry, db.engine.memtable.get key = none →
    db.engine.immutable.bind (·.get key) = some entry →
      visible (db.tableLookup key) = visible (some entry)

/-- Manifest file and memory agree.  If the run is a clean one, operations that fail
write nothing. -/
structure Stage (sound : fmt.Sound Fits) (clean : Prop) (expected : Key → Option Bytes)
    (db : Db fmt) (shelf : Shelf fmt) : Prop where
  kept : Kept sound db expected shelf
  aligned : shelf.manifest.tables = db.engine.manifest.tables
  whole : Whole db.disk.manifest
  planned : clean → ∀ verdict ∈ db.faults, verdict.Clean

/-- What an operation leaves: a database that is kept, and whose manifest file agrees
with memory in a clean run. -/
def Left (sound : fmt.Sound Fits) (clean : Prop) (expected : Key → Option Bytes)
    (db : Db fmt) : Prop :=
  ∃ shelf, Kept sound db expected shelf ∧
    (clean → shelf.manifest.tables = db.engine.manifest.tables ∧ Whole db.disk.manifest)

/-- How an operation fails: it leaves a database that is kept, and it panics only if
there is no room. -/
def Fails (sound : fmt.Sound Fits) (clean : Prop) (expected : Key → Option Bytes) (room : Prop)
    (failure : Failure) (db : Db fmt) : Prop :=
  Left sound clean expected db ∧ (failure = .panic → ¬ room)

namespace Stage

variable {sound : fmt.Sound Fits} {clean : Prop} {expected : Key → Option Bytes}
  {db : Db fmt} {shelf : Shelf fmt} {room : Prop}

theorem left (stage : Stage sound clean expected db shelf) : Left sound clean expected db :=
  ⟨shelf, stage.kept, fun _ => ⟨stage.aligned, stage.whole⟩⟩

theorem version_eq (stage : Stage sound clean expected db shelf) :
    shelf.version = db.engine.version :=
  stage.kept.inStep stage.aligned

/-- With manifest file and memory in step, lookups through the tables on disk are
lookups through the version. -/
theorem tableLookup_eq (stage : Stage sound clean expected db shelf) (key : Key) :
    shelf.tableLookup db.disk.sst key = db.tableLookup key := by
  rw [Shelf.tableLookup, stage.version_eq]
  rfl

theorem progress_eq (stage : Stage sound clean expected db shelf) {progress : Nat}
    {faults : List Verdict} (isPlan : db.faults = .fail progress :: faults) (isClean : clean) :
    progress = 0 := by
  refine stage.planned isClean (.fail progress) ?_
  rw [isPlan]
  exact List.mem_cons_self

/-- Freezing keeps a database whose parked entries are covered. -/
theorem freeze (stage : Stage sound clean expected db shelf) (covered : db.Covered) :
    Stage sound clean expected db.frozen shelf := by
  have kept := stage.kept
  have frozenGet : ∀ key, (MemTable.ofRun db.engine.memtable.iter).get key =
      db.engine.memtable.get key :=
    fun key => MemTable.get_ofRun db.engine.memtable.iter_sorted key
  have tables : ∀ key, db.engine.memtable.get key = none →
      visible (db.tableLookup key) = expected key := by
    intro key absent
    cases parked : db.engine.immutable.bind (·.get key) with
    | none => rw [← stage.tableLookup_eq, kept.settled key absent parked]
    | some entry =>
        rw [covered key entry absent parked, ← kept.reads key, Db.reading, absent, parked]
        rfl
  refine ⟨{ kept with logged := ?_, reads := ?_, settled := ?_ }, stage.aligned, stage.whole,
    stage.planned⟩
  · intro key entry found
    cases found
  · intro key
    change visible ((some (MemTable.ofRun db.engine.memtable.iter)).bind (·.get key) |>.or
      (db.tableLookup key)) = _
    rw [Option.bind_some, frozenGet]
    cases found : db.engine.memtable.get key with
    | none => exact tables key found
    | some entry =>
        rw [← kept.reads key, Db.reading, found]
        rfl
  · intro key _ parked
    change (MemTable.ofRun db.engine.memtable.iter).get key = none at parked
    rw [frozenGet] at parked
    exact (congrArg visible (stage.tableLookup_eq key)).trans (tables key parked)

/-- Allocating an id, durably. -/
theorem nextTableId (stage : Stage sound clean expected db shelf) (roomy : room → Roomy db) :
    Yields LsmStore.nextTableId db
      (fun id after => id = db.engine.manifest.nextTableId ∧ db.Passed after ∧
        after.disk.sst = db.disk.sst ∧
        after.engine = { db.engine with manifest := db.engine.manifest.allocated } ∧
        ∃ durable : Manifest, id.toNat < durable.nextTableId.toNat ∧
          Stage sound clean expected after { shelf with manifest := durable })
      (Fails sound clean expected room) := by
  have kept := stage.kept
  have behind := kept.behind
  have replayed : shelf.manifest.replayRecord
      (.setNextTableId (db.engine.manifest.nextTableId + 1)) =
        .ok { shelf.manifest with nextTableId := db.engine.manifest.nextTableId + 1 } := rfl
  refine Yields.intro ?_ ?_
  · intro id after done
    have passed := nextTableId_passed done
    obtain ⟨rfl, spare, faults, rfl⟩ := nextTableId_of_ok done
    have next := toNat_succ spare
    obtain ⟨recorded, whole⟩ := kept.shelved.recorded.append stage.whole replayed
    refine ⟨rfl, passed, rfl, rfl, _, ?_,
      kept.withManifest db.engine.manifest.allocated recorded rfl rfl ?_ (le_refl _) faults, stage.aligned, whole,
      passed.planned stage.planned⟩
    · dsimp only
      omega
    · dsimp only
      omega
  · intro failure after failed
    rcases nextTableId_of_error failed with
      ⟨_, full, rfl⟩ | ⟨rfl, spare, progress, faults, isPlan, rfl⟩
    · exact ⟨stage.left, fun _ isRoom => full (roomy isRoom)⟩
    · refine ⟨?_, nofun⟩
      have next : (db.engine.manifest.nextTableId + 1).toNat =
          db.engine.manifest.nextTableId.toNat + 1 := toNat_succ spare
      have unwritten : clean → Whole (db.disk.manifest ++
          (ManifestRecord.setNextTableId (db.engine.manifest.nextTableId + 1)).encode.take
            progress) := by
        intro isClean
        rw [stage.progress_eq isPlan isClean, List.take_zero, List.append_nil]
        exact stage.whole
      rcases kept.shelved.recorded.append_part stage.whole replayed progress with
        recorded | ⟨_, recorded⟩
      · exact ⟨_, kept.withManifest db.engine.manifest.allocated recorded rfl rfl (le_refl _)
          (by change _ ≤ (db.engine.manifest.nextTableId + 1).toNat; omega) faults,
          fun isClean => ⟨stage.aligned, unwritten isClean⟩⟩
      · exact ⟨_, kept.withManifest db.engine.manifest.allocated recorded rfl rfl (by dsimp only; omega) (le_refl _) faults,
          fun isClean => ⟨stage.aligned, unwritten isClean⟩⟩

/-- Writing a table under an allocated id. -/
theorem createTable (stage : Stage sound clean expected db shelf) {id : UInt64}
    {entries : List (Key × Entry)} (absent : db.disk.sst id = none)
    (below : id.toNat < shelf.manifest.nextTableId.toNat) (valid : ValidRun entries)
    (fits : Fits db.engine.options entries) :
    Yields (LsmStore.createTable id entries) db
      (fun table after => ∃ file handle,
        fmt.create db.engine.options entries = .ok (file, handle) ∧ table = ⟨id, handle⟩ ∧
        after.disk = db.disk.withTable id file ∧ after.engine = db.engine ∧ db.Passed after ∧
        Held sound after.disk.sst table ∧ entriesOn after.disk.sst table = entries ∧
        Stage sound clean expected after shelf)
      (Fails sound clean expected room) := by
  refine Yields.intro ?_ ?_
  · intro table after done
    have passed := createTable_passed done
    obtain ⟨file, handle, faults, created, rfl, rfl⟩ := createTable_of_ok done
    obtain ⟨held, isEntries⟩ := held_of_create sound db.disk.sst id valid fits created
    exact ⟨file, handle, created, rfl, rfl, rfl, passed, held, isEntries,
      stage.kept.withTable absent below file faults, stage.aligned, stage.whole,
      passed.planned stage.planned⟩
  · intro failure after failed
    rcases createTable_of_error failed with
      ⟨refused, _⟩ | ⟨file, handle, _, rfl, disk, faults, rfl, isDisk⟩
    · obtain ⟨_, _, created, _⟩ := sound.create_ok valid fits
      rw [created] at refused
      cases refused
    · refine ⟨?_, nofun⟩
      have agree : clean →
          shelf.manifest.tables = db.engine.manifest.tables ∧ Whole db.disk.manifest :=
        fun _ => ⟨stage.aligned, stage.whole⟩
      rcases isDisk with rfl | rfl | rfl
      · exact ⟨shelf, { stage.kept with shelved := stage.kept.shelved }, agree⟩
      · exact ⟨shelf, { stage.kept with shelved := { stage.kept.shelved with } }, agree⟩
      · exact ⟨shelf, stage.kept.withTable absent below file faults, agree⟩

/-! ### Recording a flushed table -/

section Record

variable {table : SsTable fmt} {parked : MemTable} {version : Version fmt}

/-- The frozen memtable is all there is in memory, its table is written, and the
log has its entries. -/
structure Written (stage : Stage sound clean expected db shelf) (parked : MemTable)
    (table : SsTable fmt) : Prop where
  empty : ∀ key, db.engine.memtable.get key = none
  isParked : db.engine.immutable = some parked
  held : Held sound db.disk.sst table
  entries : ∀ key, valueAt (entriesOn db.disk.sst table) key = parked.get key
  fresh : ∀ other ∈ db.engine.version.tablesNewestFirst, other.id ≠ table.id
  logged : ∀ key entry, parked.get key = some entry →
    (applyAll shelf.operations).get key = some entry

namespace Written

variable {stage : Stage sound clean expected db shelf}

theorem unlisted (written : Written stage parked table) :
    db.engine.manifest.lists table.id = false := by
  by_contra listed
  have member := Manifest.lists_iff.mp (by simpa using listed)
  obtain ⟨other, inVersion, same⟩ := stage.kept.mirrored.lists_iff.mp member
  exact written.fresh other inVersion same

theorem replayed (written : Written stage parked table) :
    shelf.manifest.replayRecord (.addTable table.id 0) = .ok (shelf.manifest.added table.id 0) := by
  have unlisted : shelf.manifest.lists table.id = false := by
    rw [Manifest.lists, stage.aligned]
    exact written.unlisted
  rw [Manifest.replayRecord, unlisted]
  rfl

/-- Lookups with the new table in front. -/
theorem lookupIn_pushed (written : Written stage parked table)
    (pushed : db.engine.version.pushFront table = .ok version) (key : Key) :
    lookupIn (entriesOn db.disk.sst) version.tablesNewestFirst key =
      (parked.get key).or (db.tableLookup key) := by
  rw [lookupIn, (pushFront_eq_ok pushed).1, List.findSome?_cons, entryIn, written.entries]
  cases parked.get key <;> rfl

theorem reading_eq (written : Written stage parked table) (key : Key) :
    visible ((parked.get key).or (db.tableLookup key)) = expected key := by
  rw [← stage.kept.reads key, Db.reading, written.empty key, written.isParked]
  rfl

/-- The shelf with the table recorded. -/
theorem shelved (written : Written stage parked table)
    (pushed : db.engine.version.pushFront table = .ok version) {bytes : Bytes}
    (recorded : RecordsTo bytes (shelf.manifest.added table.id 0)) :
    Shelved sound db.engine.options { db.disk with manifest := bytes }
      ⟨shelf.manifest.added table.id 0, version, shelf.operations⟩ := by
  have kept := stage.kept
  refine
    { kept.shelved with
      recorded := recorded
      mirrored := ?_
      depth := (pushFront_eq_ok pushed).2.1.trans kept.depth
      stocked := kept.stocked.pushFront written.held written.fresh pushed }
  change Mirrors (shelf.manifest.tables ++ [(table.id, 0)]) version
  rw [stage.aligned]
  exact kept.mirrored.pushFront pushed

/-- The recorded table changes nothing that the log does not say as well. -/
theorem restores (written : Written stage parked table)
    (pushed : db.engine.version.pushFront table = .ok version) (key : Key) :
    visible (((applyAll shelf.operations).get key).or
      (lookupIn (entriesOn db.disk.sst) version.tablesNewestFirst key)) = expected key := by
  rw [← stage.kept.restores key, Shelf.reading, stage.tableLookup_eq,
    written.lookupIn_pushed pushed]
  cases found : (applyAll shelf.operations).get key with
  | some entry => rfl
  | none =>
      have absent : parked.get key = none := by
        by_contra present
        obtain ⟨entry, isEntry⟩ := Option.ne_none_iff_exists'.mp present
        rw [written.logged key entry isEntry] at found
        cases found
      rw [absent]
      rfl

/-- The append failed, but the record is there: the directory has a table that the
engine does not know of. -/
theorem kept_unknown (written : Written stage parked table)
    (pushed : db.engine.version.pushFront table = .ok version) {bytes : Bytes}
    (recorded : RecordsTo bytes (shelf.manifest.added table.id 0)) (faults : List Verdict) :
    Kept sound ⟨{ db.disk with manifest := bytes }, db.engine, faults⟩ expected
      ⟨shelf.manifest.added table.id 0, version, shelf.operations⟩ := by
  refine
    { stage.kept with
      shelved := written.shelved pushed recorded
      deeper := (pushFront_eq_ok pushed).2.2.2
      inStep := ?_
      restores := written.restores pushed
      settled := ?_ }
  · intro same
    have lengths := congrArg List.length same
    change (shelf.manifest.tables ++ [(table.id, 0)]).length = _ at lengths
    rw [List.length_append, stage.aligned] at lengths
    exact absurd lengths (by simp)
  · intro key _ _
    refine Eq.trans (congrArg visible ?_) (written.reading_eq key)
    exact written.lookupIn_pushed pushed key

/-- The table is recorded and installed. -/
theorem kept_installed (written : Written stage parked table)
    (pushed : db.engine.version.pushFront table = .ok version) {bytes : Bytes}
    (recorded : RecordsTo bytes (shelf.manifest.added table.id 0)) (faults : List Verdict) :
    Kept sound
      ⟨{ db.disk with manifest := bytes },
        { db.engine with
          version := version, manifest := db.engine.manifest.added table.id 0 }, faults⟩ expected
      ⟨shelf.manifest.added table.id 0, version, shelf.operations⟩ := by
  have found := written.lookupIn_pushed pushed
  refine
    { written.kept_unknown pushed recorded faults with
      depth := (pushFront_eq_ok pushed).2.1.trans stage.kept.depth
      stocked := stage.kept.stocked.pushFront written.held written.fresh pushed
      mirrored := stage.kept.mirrored.pushFront pushed
      deeper := fun _ _ => rfl
      inStep := fun _ => rfl
      reads := ?_ }
  intro key
  refine Eq.trans ?_ (written.reading_eq key)
  unfold Db.reading Db.tableLookup
  dsimp only
  rw [written.empty key, written.isParked, found key]
  change visible ((parked.get key).or ((parked.get key).or (db.tableLookup key))) = _
  rw [← Option.or_assoc, Option.or_self]
  rfl

end Written

end Record

end Stage

/-- The tables answer for everything: memtable and log can go. -/
structure Settled (sound : fmt.Sound Fits) (clean : Prop) (expected : Key → Option Bytes)
    (db : Db fmt) (shelf : Shelf fmt) : Prop where
  stage : Stage sound clean expected db shelf
  empty : ∀ key, db.engine.memtable.get key = none
  tables : ∀ key, visible (db.tableLookup key) = expected key

namespace Stage

variable {sound : fmt.Sound Fits} {clean : Prop} {expected : Key → Option Bytes}
  {db : Db fmt} {shelf : Shelf fmt} {room : Prop} {parked : MemTable} {table : SsTable fmt}

/-- Recording a flushed table. -/
theorem Written.addTable {stage : Stage sound clean expected db shelf}
    (written : Written stage parked table) :
    Yields (LsmStore.addTable table.id 0) db
      (fun _ after => ∃ version shelf', after.engine.version.pushFront table = .ok version ∧
        Settled sound clean expected (after.withVersion version) shelf')
      (Fails sound clean expected room) := by
  obtain ⟨version, pushed⟩ := pushFront_ok stage.kept.levels_ne_nil table
  have found := written.lookupIn_pushed pushed
  refine Yields.intro ?_ ?_
  · intro _ after done
    have passed := addTable_passed done
    obtain ⟨_, faults, rfl⟩ := addTable_of_ok done
    obtain ⟨recorded, whole⟩ := stage.kept.shelved.recorded.append stage.whole written.replayed
    refine ⟨version, _, pushed,
      ⟨written.kept_installed pushed recorded faults, ?_, whole,
        passed.planned stage.planned⟩, written.empty, ?_⟩
    · exact congrArg (· ++ [(table.id, 0)]) stage.aligned
    · intro key
      exact (congrArg visible (found key)).trans (written.reading_eq key)
  · intro failure after failed
    rcases addTable_of_error failed with ⟨rfl, _, rfl⟩ | ⟨rfl, progress, faults, isPlan, rfl⟩
    · exact ⟨stage.left, nofun⟩
    · refine ⟨?_, nofun⟩
      rcases stage.kept.shelved.recorded.append_part stage.whole written.replayed progress with
        recorded | ⟨all, recorded⟩
      · refine ⟨_, stage.kept.withManifest db.engine.manifest recorded rfl rfl (le_refl _)
          stage.kept.behind faults, fun isClean => ⟨stage.aligned, ?_⟩⟩
        dsimp only
        rw [stage.progress_eq isPlan isClean, List.take_zero, List.append_nil]
        exact stage.whole
      · refine ⟨_, written.kept_unknown pushed recorded faults, fun isClean => ?_⟩
        rw [stage.progress_eq isPlan isClean] at all
        exact absurd all (by decide)

end Stage

namespace Settled

variable {sound : fmt.Sound Fits} {clean : Prop} {expected : Key → Option Bytes}
  {db : Db fmt} {shelf : Shelf fmt} {room : Prop}

/-- Emptying the log. -/
theorem emptied (settled : Settled sound clean expected db shelf) {faults : List Verdict}
    (planned : clean → ∀ verdict ∈ faults, verdict.Clean) :
    Settled sound clean expected { db with disk := { db.disk with wal := [] }, faults := faults }
      { shelf with operations := [] } := by
  have stage := settled.stage
  refine ⟨⟨?_, stage.aligned, stage.whole, planned⟩, settled.empty, settled.tables⟩
  refine
    { stage.kept with
      shelved := { stage.kept.shelved with fit := List.forall_mem_nil _, logged := rfl }
      logged := ?_
      restores := ?_ }
  · intro key entry found
    change db.engine.memtable.get key = _ at found
    rw [settled.empty key] at found
    cases found
  · intro key
    exact (congrArg visible (stage.tableLookup_eq key)).trans (settled.tables key)

theorem walTruncate (settled : Settled sound clean expected db shelf) :
    Yields LsmStore.walTruncate db
      (fun _ after => ∃ shelf', Settled sound clean expected after shelf')
      (Fails sound clean expected room) := by
  have stage := settled.stage
  obtain ⟨disk, engine, faults⟩ := db
  have planned := stage.planned
  cases faults with
  | nil => exact ⟨_, settled.emptied planned⟩
  | cons verdict rest =>
      have restPlanned : clean → ∀ verdict ∈ rest, verdict.Clean :=
        fun isClean other member => planned isClean other (List.mem_cons_of_mem _ member)
      cases verdict with
      | done => exact ⟨_, settled.emptied restPlanned⟩
      | fail progress =>
          cases progress with
          | zero =>
              exact ⟨⟨shelf, { stage.kept with }, fun _ => ⟨stage.aligned, stage.whole⟩⟩, nofun⟩
          | succ progress => exact ⟨(settled.emptied restPlanned).stage.left, nofun⟩

/-- Forgetting the frozen memtable. -/
theorem clearImmutable (settled : Settled sound clean expected db shelf) :
    Yields LsmStore.clearImmutable db (fun _ after => Left sound clean expected after)
      (Fails sound clean expected room) := by
  have stage := settled.stage
  have thawed : Kept sound { db with engine := { db.engine with immutable := none } } expected
      shelf := by
    refine { stage.kept with reads := ?_, settled := ?_ }
    · intro key
      refine Eq.trans ?_ (settled.tables key)
      unfold Db.reading
      dsimp only
      rw [settled.empty key]
      rfl
    · intro key _ _
      exact (congrArg visible (stage.tableLookup_eq key)).trans (settled.tables key)
  exact ⟨shelf, thawed, fun _ => ⟨stage.aligned, stage.whole⟩⟩

end Settled

/-! ## Whole operations -/

section Operations

variable {sound : fmt.Sound Fits} {db : Db fmt} {clean : Prop} {expected : Key → Option Bytes}
  {shelf : Shelf fmt}

/-- A kept database whose manifest file agrees with memory is ready for a flush or
a pass. -/
theorem Kept.stage (kept : Kept sound db expected shelf) (inStep : db.InStep)
    (planned : clean → ∀ verdict ∈ db.faults, verdict.Clean) :
    Stage sound clean expected db shelf := by
  have recovered := inStep.2
  rw [kept.shelved.recorded.recover] at recovered
  exact ⟨kept, Except.ok.inj recovered, inStep.1, planned⟩

/-- **A flush keeps the database**, whatever step of it fails. -/
theorem Left.flushMemtable (left : Left sound clean expected db)
    (planned : clean → ∀ verdict ∈ db.faults, verdict.Clean)
    (fits : Fits db.engine.options db.engine.memtable.iter)
    (ready : db.engine.memtable.isEmpty = false → db.InStep ∧ db.Covered) :
    Yields LsmStore.flushMemtable db (fun _ after => Left sound clean expected after)
      (Fails sound clean expected (Roomy db)) := by
  obtain ⟨shelf, kept, agrees⟩ := left
  have start : Yields current db (fun value mid => db = value ∧ db = mid)
      (Fails sound clean expected (Roomy db)) := ⟨rfl, rfl⟩
  refine start.bind ?_
  rintro _ _ ⟨rfl, rfl⟩
  by_cases empty : db.engine.memtable.isEmpty = true
  · rw [if_pos empty]
    have synced : ∀ faults, Left sound clean expected { db with faults := faults } :=
      fun faults => ⟨shelf, { kept with }, agrees⟩
    refine Yields.intro ?_ ?_
    · intro _ after done
      obtain ⟨faults, rfl⟩ := walSync_of_ok done
      exact synced faults
    · intro failure after failed
      obtain ⟨rfl, faults, rfl⟩ := walSync_of_error failed
      exact ⟨synced faults, nofun⟩
  · rw [if_neg empty]
    obtain ⟨inStep, covered⟩ := ready (by simpa using empty)
    have frozen := (kept.stage inStep planned).freeze covered
    have valid := kept.validRun
    have freezes : Yields LsmStore.freeze db
        (fun value mid => db.engine.memtable.iter = value ∧ db.frozen = mid)
        (Fails sound clean expected (Roomy db)) := ⟨rfl, rfl⟩
    refine freezes.bind ?_
    rintro _ _ ⟨rfl, rfl⟩
    refine (frozen.nextTableId fun roomy => roomy).bind ?_
    rintro id mid ⟨rfl, _, files, isEngine, durable, below, stage⟩
    have absent : mid.disk.sst db.engine.manifest.nextTableId = none := by
      rw [files]
      exact kept.unused (le_refl _)
    refine (stage.createTable absent below valid (by rw [isEngine]; exact fits)).bind ?_
    rintro table made ⟨file, handle, created, rfl, isDisk, sameEngine, _, held, isEntries, stage'⟩
    have written : stage'.Written (MemTable.ofRun db.engine.memtable.iter)
        ⟨db.engine.manifest.nextTableId, handle⟩ := by
      refine ⟨?_, ?_, held, ?_, ?_, ?_⟩
      · intro key
        rw [sameEngine, isEngine]
        rfl
      · rw [sameEngine, isEngine]
        rfl
      · intro key
        rw [isEntries, MemTable.get_ofRun db.engine.memtable.iter_sorted]
      · rw [sameEngine]
        exact Kept.fresh_of_unused stage.kept.stocked absent
      · intro key entry found
        rw [MemTable.get_ofRun db.engine.memtable.iter_sorted] at found
        exact kept.logged key entry found
    refine written.addTable.bind ?_
    rintro _ listed ⟨version, shelf', pushed, settled⟩
    have pushes : Yields (LsmStore.pushFront ⟨db.engine.manifest.nextTableId, handle⟩) listed
        (fun _ mid => mid = listed.withVersion version)
        (Fails sound clean expected (Roomy db)) := by
      rw [Yields, pushFront_eq pushed]
    refine pushes.bind ?_
    rintro _ _ rfl
    refine settled.walTruncate.bind ?_
    rintro _ _ ⟨shelf'', settled'⟩
    exact settled'.clearImmutable

theorem Left.planned (left : Left sound clean expected db) (plan : List Verdict) :
    Left sound clean expected (db.planned plan) := by
  obtain ⟨shelf, kept, agrees⟩ := left
  exact ⟨shelf, { kept with }, agrees⟩

/-- Changes of the cache and of the counters. -/
theorem Left.note (left : Left sound clean expected db) {cache : fmt.Cache}
    (coherent : sound.Coherent db.disk.sst cache) (lastError : Option String)
    (bloomSkips sstableReads inbox : Nat) (running : Bool) :
    Left sound clean expected
      { db with
        engine :=
          { db.engine with
            cache := cache, lastError := lastError, bloomSkips := bloomSkips,
            sstableReads := sstableReads, inbox := inbox, running := running } } := by
  obtain ⟨shelf, kept, agrees⟩ := left
  exact ⟨shelf, { kept with coherent := coherent }, agrees⟩

theorem Left.coherent (left : Left sound clean expected db) :
    sound.Coherent db.disk.sst db.engine.cache := by
  obtain ⟨shelf, kept, _⟩ := left
  exact kept.coherent

theorem Left.flush (left : Left sound clean expected db)
    (planned : clean → ∀ verdict ∈ db.faults, verdict.Clean)
    (fits : Fits db.engine.options db.engine.memtable.iter)
    (ready : db.engine.memtable.isEmpty = false → db.InStep ∧ db.Covered) :
    Yields LsmStore.flush db (fun _ after => Left sound clean expected after)
      (Fails sound clean expected (Roomy db)) := by
  refine (left.flushMemtable planned fits ready).bind ?_
  intro _ mid flushed
  unfold Yields maybeRequestCompaction
  split_ifs
  · exact flushed.note flushed.coherent mid.engine.lastError mid.engine.bloomSkips
      mid.engine.sstableReads (mid.engine.inbox + 1) mid.engine.running
  · exact flushed

/-- What is expected after a write. -/
def Operation.update (operation : Operation) (expected : Key → Option Bytes) :
    Key → Option Bytes :=
  Function.update expected operation.key operation.result

/-- A logged and applied write. -/
theorem Left.written (left : Left sound clean expected db) {operation : Operation}
    (fits : operation.Fits) (keyed : operation.key ≠ []) :
    Left sound clean (operation.update expected) (db.written operation) := by
  obtain ⟨shelf, kept, agrees⟩ := left
  refine ⟨{ shelf with operations := shelf.operations ++ [operation] }, ?_, agrees⟩
  refine
    { kept with
      shelved := { kept.shelved with fit := ?_, logged := ?_ }
      logged := ?_
      reads := ?_
      restores := ?_
      settled := ?_ }
  · intro other member
    rcases List.mem_append.mp member with earlier | isLast
    · exact kept.shelved.fit other earlier
    · rw [List.mem_singleton.mp isLast]
      exact ⟨fits, keyed⟩
  · change db.disk.wal ++ record operation = _
    rw [kept.shelved.logged]
    simp [records]
  · intro key entry found
    change (apply db.engine.memtable operation).get key = _ at found
    dsimp only
    rw [applyAll_concat, get_apply]
    rw [get_apply] at found
    split
    · rename_i same
      rwa [if_pos same] at found
    · rename_i different
      rw [if_neg different] at found
      exact kept.logged key entry found
  · intro key
    rw [reading_written, Operation.update, Function.update_apply, kept.reads key]
  · intro key
    rw [Operation.update, Function.update_apply, ← kept.restores key, Shelf.reading]
    dsimp only
    rw [applyAll_concat, get_apply]
    split
    · exact visible_entry operation
    · rfl
  · intro key absent parked
    change (apply db.engine.memtable operation).get key = none at absent
    rw [get_apply] at absent
    split at absent
    · cases absent
    · rename_i different
      rw [Operation.update, Function.update_of_ne different]
      exact kept.settled key absent parked

theorem walAppend_of_done {operation : Operation} (fits : operation.Fits)
    (passes : ∀ verdict ∈ db.faults.head?, verdict = .done) :
    walAppend operation db =
      .ok ()
        { db with
          disk := { db.disk with wal := db.disk.wal ++ record operation }
          faults := db.faults.tail } := by
  obtain ⟨disk, engine, faults⟩ := db
  have encoded : (Wal.mk disk.wal).append operation =
      .ok (disk.wal.length, ⟨disk.wal ++ record operation⟩) :=
    Wal.append_eq_ok_iff.mpr ⟨fits, rfl, rfl⟩
  unfold walAppend
  rw [encoded]
  cases faults with
  | nil => rfl
  | cons verdict rest =>
      obtain rfl := passes verdict rfl
      rfl

theorem walSync_of_done (passes : ∀ verdict ∈ db.faults.head?, verdict = .done) :
    walSync db = .ok () { db with faults := db.faults.tail } := by
  obtain ⟨disk, engine, faults⟩ := db
  cases faults with
  | nil => rfl
  | cons verdict rest =>
      obtain rfl := passes verdict rfl
      rfl

/-- Logging and applying, when the plan lets the log's operations pass. -/
theorem logAndApply_of_done {operation : Operation} (fits : operation.Fits)
    (passes : ∀ verdict ∈ db.faults.take 2, verdict = .done) :
    logAndApply operation db =
      .ok () { db.written operation with faults := db.faults.tail.tail } := by
  have appended := @walAppend_of_done fmt db operation fits fun verdict member => by
    refine passes verdict ?_
    cases isPlan : db.faults with
    | nil => rw [isPlan] at member; cases member
    | cons first rest => rw [isPlan] at member; cases member; exact List.mem_cons_self
  refine (bind_of_ok appended).trans ((bind_of_ok (walSync_of_done ?_)).trans rfl)
  intro verdict member
  refine passes verdict ?_
  match isPlan : db.faults, member with
  | _ :: second :: _, member => cases member; exact List.mem_cons_of_mem _ List.mem_cons_self

end Operations

end LsmStore
