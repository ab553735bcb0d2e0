import LsmStore.Recovery

/-!
# Steps of a database without file failures

Every operation of the engine is made of a few changes of the database: a write
is logged and applied, the memtable is flushed, a compaction is installed, the
directory is reopened, or only bookkeeping changes.  `Step` says once what each
of them does.  An invariant of whole runs is then proved by one case per step.

`Consistent` relates the parts of a database to each other: the version to the
table files and to the manifest, the manifest to its file, the memtable to the
log.  Every step keeps it (`Step.consistent`), and what a read sees is what the
history of writes says (`Step.refines`).

Beside the database runs a ghost that no operation reads: the history of writes,
and for every stored version of a key the time of the write it comes from.
-/

set_option autoImplicit false

namespace LsmStore

open Foundation

variable {fmt : TableFormat} {Fits : Options → List (Key × Entry) → Prop}

/-! ## The reference and the ghost -/

/-- What a write leaves under its key. -/
def Operation.result : Operation → Option Bytes
  | .put _ value => some value
  | .delete _ => none

/-- The reference: a finite map after a history of writes. -/
def reference (history : List Operation) : Key → Option Bytes :=
  history.foldl (fun map operation => Function.update map operation.key operation.result)
    fun _ => none

theorem reference_concat (history : List Operation) (operation : Operation) (key : Key) :
    reference (history ++ [operation]) key =
      if key = operation.key then operation.result else reference history key := by
  unfold reference
  rw [List.foldl_append, List.foldl_cons, List.foldl_nil, Function.update_apply]

theorem visible_entry (operation : Operation) :
    visible (some operation.entry) = operation.result := by
  cases operation <;> rfl

/-- The history of writes, and the time of the write that each stored version of
a key comes from.  The time of a write is its position in the history. -/
structure Ghost where
  history : List Operation
  /-- The time of the memtable's version of a key. -/
  memtable : Key → Nat
  /-- The time of a table's version of a key. -/
  table : UInt64 → Key → Nat

namespace Ghost

/-- No write yet. -/
def start : Ghost := ⟨[], fun _ => 0, fun _ _ => 0⟩

/-- A write goes into the memtable. -/
def written (ghost : Ghost) (operation : Operation) : Ghost :=
  { ghost with
    history := ghost.history ++ [operation]
    memtable := Function.update ghost.memtable operation.key ghost.history.length }

/-- A flushed table takes the versions of the memtable. -/
def flushed (ghost : Ghost) (db : Db fmt) : Ghost :=
  { ghost with
    table := Function.update ghost.table db.engine.manifest.nextTableId ghost.memtable }

/-- The time of the version that merging the tables leaves: that of the first
table which holds the key. -/
def mergedTime (ghost : Ghost) (content : SsTable fmt → List (Key × Entry))
    (inputs : List (SsTable fmt)) (key : Key) : Nat :=
  match inputs.find? fun input => (entryIn content key input).isSome with
  | some input => ghost.table input.id key
  | none => 0

/-- A compacted table takes the newest versions of its inputs. -/
def compacted (ghost : Ghost) (db : Db fmt) (job : CompactionJob fmt) : Ghost :=
  { ghost with
    table := Function.update ghost.table db.engine.manifest.nextTableId
      (ghost.mergedTime (entriesOn db.disk.sst) job.inputs) }

end Ghost

/-! ## Steps -/

/-- The database after a write. -/
def Db.written (db : Db fmt) (operation : Operation) : Db fmt :=
  { db with
    disk := { db.disk with wal := db.disk.wal ++ record operation }
    engine := { db.engine with memtable := apply db.engine.memtable operation } }

/-- The records a flush appends to the manifest. -/
def flushRecords (id : UInt64) : List ManifestRecord := [.setNextTableId (id + 1), .addTable id 0]

/-- The database after a flush. -/
def Db.flushed (db : Db fmt) (file : fmt.File) (version : Version fmt) : Db fmt :=
  { db with
    disk :=
      { db.disk.withTable db.engine.manifest.nextTableId file with
        wal := []
        manifest := db.disk.manifest ++
          manifestLog (flushRecords db.engine.manifest.nextTableId) }
    engine :=
      { db.engine with
        memtable := MemTable.new
        immutable := none
        version := version
        manifest := db.engine.manifest.allocated.added db.engine.manifest.nextTableId 0 } }

/-- The database after its directory has been opened again. -/
def Db.reopened (db : Db fmt) (placed : Placement fmt) : Db fmt :=
  { db with
    engine := Engine.opened db.engine.options db.engine.manifest
      (rebuilt db.engine.options.maxLevels placed) db.engine.memtable }

/-- What can happen to a database in one step when no file operation fails. -/
inductive Step (sound : fmt.Sound Fits) : Db fmt × Ghost → Db fmt × Ghost → Prop
  | write {db : Db fmt} {ghost : Ghost} (operation : Operation) (fits : operation.Fits)
      (keyed : operation.key ≠ []) :
      Step sound (db, ghost) (db.written operation, ghost.written operation)
  | flush {db : Db fmt} {ghost : Ghost} {file : fmt.File} {handle : fmt.Handle}
      {version : Version fmt} (room : db.engine.manifest.nextTableId.toNat + 1 ≤ u64Max)
      (fits : Fits db.engine.options db.engine.memtable.iter)
      (created : fmt.create db.engine.options db.engine.memtable.iter = .ok (file, handle))
      (pushed : db.engine.version.pushFront ⟨db.engine.manifest.nextTableId, handle⟩ =
        .ok version) :
      Step sound (db, ghost) (db.flushed file version, ghost.flushed db)
  | compact {db : Db fmt} {ghost : Ghost} {job : CompactionJob fmt} {file : fmt.File}
      {handle : fmt.Handle} (room : db.engine.manifest.nextTableId.toNat + 1 ≤ u64Max)
      (picked : pickCompaction db.engine.version db.engine.options = .ok (some job))
      (fits : Fits db.engine.options (mergedEntries db.disk.sst job (db.drops job)))
      (created : fmt.create db.engine.options (mergedEntries db.disk.sst job (db.drops job)) =
        .ok (file, handle)) :
      Step sound (db, ghost) (db.compacted job file handle [], ghost.compacted db job)
  | reopen {db : Db fmt} {ghost : Ghost} {placed : Placement fmt}
      (places : Places placed db.engine.version)
      (listed : db.engine.manifest.tables = placed.listing) (fit : LevelsFit db.engine.version) :
      Step sound (db, ghost) (db.reopened placed, ghost)
  | note {db : Db fmt} {ghost : Ghost} (cache : fmt.Cache) (lastError : Option String)
      (bloomSkips sstableReads inbox : Nat) (running : Bool)
      (coherent : sound.Coherent db.disk.sst cache) :
      Step sound (db, ghost)
        ({ db with
            engine :=
              { db.engine with
                cache := cache, lastError := lastError, bloomSkips := bloomSkips,
                sstableReads := sstableReads, inbox := inbox, running := running } }, ghost)

/-! ## Consistent databases -/

/-- How the parts of a database fit together between two operations. -/
structure Consistent (sound : fmt.Sound Fits) (db : Db fmt) : Prop where
  positive : 1 ≤ db.engine.options.maxLevels
  depth : db.engine.version.levels.length = db.engine.options.maxLevels
  stocked : Stocked sound db.disk.sst db.engine.version
  sorted : LevelsSorted db.engine.version
  mirrored : Mirrors db.engine.manifest.tables db.engine.version
  unused : ∀ id : UInt64, db.engine.manifest.nextTableId.toNat ≤ id.toNat → db.disk.sst id = none
  recorded : ∃ records, db.disk.manifest = manifestLog records ∧
    Manifest.replayAll records .initial = .ok db.engine.manifest
  logged : ∃ operations : List Operation,
    (∀ operation ∈ operations, operation.Fits ∧ operation.key ≠ []) ∧
      db.disk.wal = records operations ∧ db.engine.memtable = applyAll operations
  thawed : db.engine.immutable = none
  coherent : sound.Coherent db.disk.sst db.engine.cache
  noFaults : db.faults = []

theorem toNat_succ {id : UInt64} (room : id.toNat + 1 ≤ u64Max) :
    (id + 1).toNat = id.toNat + 1 := by
  have small : id.toNat + 1 < 2 ^ 64 := by unfold u64Max at room; omega
  rw [UInt64.toNat_add]
  exact Nat.mod_eq_of_lt small

theorem applyAll_keys {operations : List Operation}
    (keyed : ∀ operation ∈ operations, operation.key ≠ []) :
    ∀ pair ∈ (applyAll operations).iter, pair.1 ≠ [] := by
  have step : ∀ key entry, (applyAll operations).get key = some entry → key ≠ [] := by
    induction operations using List.reverseRecOn with
    | nil =>
        intro key entry found
        cases found
    | append_singleton earlier last ih =>
        intro key entry found
        rw [applyAll_concat, get_apply] at found
        split at found
        · rename_i same
          subst same
          exact keyed last (List.mem_append_right _ (List.mem_singleton_self _))
        · exact ih (fun operation member => keyed operation (List.mem_append_left _ member))
            key entry found
  intro pair member
  refine step pair.1 pair.2 ?_
  rw [← MemTable.valueAt_iter]
  exact (applyAll operations).iter_sorted.valueAt_of_mem member

namespace Manifest

theorem replayAll_removes (ids : List UInt64) (manifest : Manifest) :
    replayAll (ids.map .removeTable) manifest = .ok (manifest.removed ids) := by
  induction ids generalizing manifest with
  | nil => rw [removed_nil]; rfl
  | cons id rest ih =>
      rw [← removed_cons]
      exact ih _

theorem replayAll_add {manifest : Manifest} {id : UInt64} (unlisted : manifest.lists id = false)
    (level : UInt32) (later : List ManifestRecord) :
    replayAll (.addTable id level :: later) manifest = replayAll later (manifest.added id level) := by
  rw [replayAll, replayRecord, unlisted]
  rfl

theorem lists_allocated (manifest : Manifest) (id : UInt64) :
    manifest.allocated.lists id = manifest.lists id := rfl

theorem replayAll_flush {manifest : Manifest}
    (unlisted : manifest.lists manifest.nextTableId = false) :
    replayAll (flushRecords manifest.nextTableId) manifest =
      .ok (manifest.allocated.added manifest.nextTableId 0) :=
  replayAll_add ((lists_allocated manifest _).trans unlisted) 0 []

theorem replayAll_compaction {manifest : Manifest}
    (unlisted : manifest.lists manifest.nextTableId = false) (job : CompactionJob fmt) :
    replayAll (compactionRecords manifest.nextTableId job) manifest =
      .ok (manifest.compacted job) :=
  (replayAll_add ((lists_allocated manifest _).trans unlisted) _ _).trans
    (replayAll_removes _ _)

end Manifest

namespace Consistent

variable {sound : fmt.Sound Fits} {db : Db fmt}

theorem fresh (consistent : Consistent sound db) :
    ∀ table ∈ db.engine.version.tablesNewestFirst,
      table.id ≠ db.engine.manifest.nextTableId := by
  intro table member same
  obtain ⟨file, present, _⟩ := consistent.stocked.held table member
  rw [consistent.unused table.id (by rw [same])] at present
  cases present

theorem unlisted (consistent : Consistent sound db) :
    db.engine.manifest.lists db.engine.manifest.nextTableId = false := by
  by_contra listed
  have member := Manifest.lists_iff.mp (by simpa using listed)
  obtain ⟨table, inVersion, same⟩ := consistent.mirrored.lists_iff.mp member
  exact consistent.fresh table inVersion same

theorem validRun (consistent : Consistent sound db) : ValidRun db.engine.memtable.iter := by
  obtain ⟨operations, fits, _, isMemtable⟩ := consistent.logged
  refine validRun_memtable ?_
  rw [isMemtable]
  exact applyAll_keys fun operation member => (fits operation member).2

/-- The file map after a new table keeps the ids from the next one on unused. -/
theorem unused_update (consistent : Consistent sound db)
    (room : db.engine.manifest.nextTableId.toNat + 1 ≤ u64Max) (file : fmt.File) (id : UInt64)
    (beyond : (db.engine.manifest.nextTableId + 1).toNat ≤ id.toNat) :
    Function.update db.disk.sst db.engine.manifest.nextTableId (some file) id = none := by
  rw [toNat_succ room] at beyond
  have different : id ≠ db.engine.manifest.nextTableId := by
    intro same
    rw [same] at beyond
    omega
  rw [Function.update_of_ne different]
  exact consistent.unused id (by omega)

/-- More records in the manifest file, replayed by the manifest in memory. -/
theorem recorded_append (consistent : Consistent sound db) {more : List ManifestRecord}
    {manifest : Manifest} (replayed : Manifest.replayAll more db.engine.manifest = .ok manifest) :
    ∃ records, db.disk.manifest ++ manifestLog more = manifestLog records ∧
      Manifest.replayAll records .initial = .ok manifest := by
  obtain ⟨records, isLog, earlier⟩ := consistent.recorded
  refine ⟨records ++ more, ?_, ?_⟩
  · rw [isLog, manifestLog_append]
  · rw [Manifest.replayAll_append, earlier]
    exact replayed

theorem written (consistent : Consistent sound db) {operation : Operation}
    (fits : operation.Fits) (keyed : operation.key ≠ []) :
    Consistent sound (db.written operation) := by
  obtain ⟨operations, allFit, isLog, isMemtable⟩ := consistent.logged
  refine { consistent with logged := ⟨operations ++ [operation], ?_, ?_, ?_⟩ }
  · intro other member
    rcases List.mem_append.mp member with earlier | isLast
    · exact allFit other earlier
    · rw [List.mem_singleton.mp isLast]
      exact ⟨fits, keyed⟩
  · change db.disk.wal ++ record operation = records (operations ++ [operation])
    rw [isLog]
    simp [records]
  · change apply db.engine.memtable operation = applyAll (operations ++ [operation])
    rw [isMemtable, applyAll_concat]

/-- The table that a flush writes. -/
theorem flushed_held (consistent : Consistent sound db) {file : fmt.File} {handle : fmt.Handle}
    (fits : Fits db.engine.options db.engine.memtable.iter)
    (created : fmt.create db.engine.options db.engine.memtable.iter = .ok (file, handle)) :
    Held sound (Function.update db.disk.sst db.engine.manifest.nextTableId (some file))
        ⟨db.engine.manifest.nextTableId, handle⟩ ∧
      entriesOn (Function.update db.disk.sst db.engine.manifest.nextTableId (some file))
        ⟨db.engine.manifest.nextTableId, handle⟩ = db.engine.memtable.iter :=
  held_of_create sound db.disk.sst db.engine.manifest.nextTableId consistent.validRun fits created

theorem flushed (consistent : Consistent sound db) {file : fmt.File} {handle : fmt.Handle}
    {version : Version fmt} (room : db.engine.manifest.nextTableId.toNat + 1 ≤ u64Max)
    (fits : Fits db.engine.options db.engine.memtable.iter)
    (created : fmt.create db.engine.options db.engine.memtable.iter = .ok (file, handle))
    (pushed : db.engine.version.pushFront ⟨db.engine.manifest.nextTableId, handle⟩ = .ok version) :
    Consistent sound (db.flushed file version) where
  positive := consistent.positive
  depth := (pushFront_eq_ok pushed).2.1.trans consistent.depth
  stocked := (consistent.stocked.update consistent.fresh file).pushFront
    (consistent.flushed_held fits created).1 consistent.fresh pushed
  sorted := consistent.sorted.pushFront pushed
  mirrored := consistent.mirrored.pushFront pushed
  unused := consistent.unused_update room file
  recorded := consistent.recorded_append (Manifest.replayAll_flush consistent.unlisted)
  logged := ⟨[], List.forall_mem_nil _, rfl, rfl⟩
  thawed := rfl
  coherent := sound.coherent_create _ file consistent.coherent (consistent.unused _ (le_refl _))
  noFaults := consistent.noFaults

theorem compacted (consistent : Consistent sound db) {job : CompactionJob fmt} {file : fmt.File}
    {handle : fmt.Handle} (room : db.engine.manifest.nextTableId.toNat + 1 ≤ u64Max)
    (picked : pickCompaction db.engine.version db.engine.options = .ok (some job))
    (fits : Fits db.engine.options (mergedEntries db.disk.sst job (db.drops job)))
    (created : fmt.create db.engine.options (mergedEntries db.disk.sst job (db.drops job)) =
      .ok (file, handle)) :
    Consistent sound (db.compacted job file handle []) := by
  have admissible := consistent.stocked.levelled.admissible_of_pick consistent.depth picked
  have untaken : job.takes ⟨db.engine.manifest.nextTableId, handle⟩ = false := by
    by_contra taken
    obtain ⟨input, isInput, same⟩ := CompactionJob.takes_iff.mp (by simpa using taken)
    exact consistent.fresh input (admissible.inputs_mem isInput) same
  exact
    { positive := consistent.positive
      depth := (length_levels_installed _ _ _).trans consistent.depth
      stocked := (stocked_compacted consistent.stocked consistent.depth consistent.fresh picked
        fits created []).1
      sorted := admissible.levelsSorted_installed consistent.sorted
      mirrored := consistent.mirrored.install admissible.inside untaken
        (keeps_level_zero_of_pick picked)
      unused := consistent.unused_update room file
      recorded := consistent.recorded_append
        (Manifest.replayAll_compaction consistent.unlisted job)
      logged := consistent.logged
      thawed := consistent.thawed
      coherent := sound.coherent_create _ file consistent.coherent
        (consistent.unused _ (le_refl _))
      noFaults := rfl }

theorem reopened (consistent : Consistent sound db) {placed : Placement fmt}
    (places : Places placed db.engine.version)
    (listed : db.engine.manifest.tables = placed.listing) (fit : LevelsFit db.engine.version) :
    Consistent sound (db.reopened placed) := by
  have positive : 1 ≤ db.engine.version.levels.length := by
    rw [consistent.depth]
    exact consistent.positive
  have rearranged := places.rearranged fit positive
  have places' := places.rebuilt fit positive
  rw [consistent.depth] at rearranged places'
  exact
    { positive := consistent.positive
      depth := length_levels_rebuilt
      stocked := rearranged.stocked consistent.stocked
      sorted := levelsSorted_rebuilt
      mirrored := ⟨placed, places', listed⟩
      unused := consistent.unused
      recorded := consistent.recorded
      logged := consistent.logged
      thawed := rfl
      coherent := sound.coherent_empty _ _
      noFaults := consistent.noFaults }

/-- A read of a consistent database returns what its layers say. -/
theorem eval_get (consistent : Consistent sound db) {key : Key}
    (valid : validateKey key = .ok ()) : db.eval (get key) = .ok (db.reading key) :=
  LsmStore.eval_get sound consistent.stocked.held consistent.coherent valid

end Consistent

/-! ## What a step preserves -/

/-- **Every step keeps a database consistent.** -/
theorem Step.consistent {sound : fmt.Sound Fits} {before after : Db fmt × Ghost}
    (step : Step sound before after) (consistent : Consistent sound before.1) :
    Consistent sound after.1 := by
  cases step with
  | write operation fits keyed => exact consistent.written fits keyed
  | flush room fits created pushed => exact consistent.flushed room fits created pushed
  | compact room picked fits created => exact consistent.compacted room picked fits created
  | reopen places listed fit => exact consistent.reopened places listed fit
  | note _ _ _ _ _ _ coherent => exact { consistent with coherent := coherent }

theorem Step.options_eq {sound : fmt.Sound Fits} {before after : Db fmt × Ghost}
    (step : Step sound before after) : after.1.engine.options = before.1.engine.options := by
  cases step <;> rfl

/-- Reads return what the reference map holds. -/
def Refines (state : Db fmt × Ghost) : Prop :=
  ∀ key, state.1.reading key = reference state.2.history key

theorem reading_written (db : Db fmt) (operation : Operation) (key : Key) :
    (db.written operation).reading key =
      if key = operation.key then operation.result else db.reading key := by
  unfold Db.reading Db.written
  dsimp only
  rw [get_apply]
  split
  · exact visible_entry operation
  · rfl

theorem Consistent.reading_flushed {sound : fmt.Sound Fits} {db : Db fmt}
    (consistent : Consistent sound db) {file : fmt.File} {handle : fmt.Handle}
    {version : Version fmt} (fits : Fits db.engine.options db.engine.memtable.iter)
    (created : fmt.create db.engine.options db.engine.memtable.iter = .ok (file, handle))
    (pushed : db.engine.version.pushFront ⟨db.engine.manifest.nextTableId, handle⟩ = .ok version)
    (key : Key) : (db.flushed file version).reading key = db.reading key := by
  have entries := (consistent.flushed_held fits created).2
  have same := Stocked.entriesOn_update db.disk.sst consistent.fresh file
  have tables : (db.flushed file version).tableLookup key =
      (db.engine.memtable.get key).or (db.tableLookup key) := by
    change lookupIn (entriesOn (Function.update db.disk.sst _ (some file)))
      version.tablesNewestFirst key = _
    unfold lookupIn
    rw [(pushFront_eq_ok pushed).1, List.findSome?_cons, entryIn, entries, MemTable.valueAt_iter]
    cases db.engine.memtable.get key with
    | some entry => rfl
    | none => exact lookupIn_congr same key
  unfold Db.reading
  rw [tables, consistent.thawed]
  rfl

theorem Consistent.reading_compacted {sound : fmt.Sound Fits} {db : Db fmt}
    (consistent : Consistent sound db) {job : CompactionJob fmt} {file : fmt.File}
    {handle : fmt.Handle}
    (picked : pickCompaction db.engine.version db.engine.options = .ok (some job))
    (fits : Fits db.engine.options (mergedEntries db.disk.sst job (db.drops job)))
    (created : fmt.create db.engine.options (mergedEntries db.disk.sst job (db.drops job)) =
      .ok (file, handle)) (key : Key) :
    (db.compacted job file handle []).reading key = db.reading key := by
  have tables := (stocked_compacted consistent.stocked consistent.depth consistent.fresh picked
    fits created []).2 key
  exact Db.reading_congr rfl rfl tables

theorem Consistent.reading_reopened {sound : fmt.Sound Fits} {db : Db fmt}
    (consistent : Consistent sound db) {placed : Placement fmt}
    (places : Places placed db.engine.version) (fit : LevelsFit db.engine.version) (key : Key) :
    (db.reopened placed).reading key = db.reading key := by
  have positive : 1 ≤ db.engine.version.levels.length := by
    rw [consistent.depth]
    exact consistent.positive
  have rearranged := places.rearranged fit positive
  rw [consistent.depth] at rearranged
  have tables : (db.reopened placed).tableLookup key = db.tableLookup key :=
    rearranged.lookupIn_eq consistent.stocked.levelled key
  unfold Db.reading
  rw [tables, consistent.thawed]
  rfl

/-- **Every step keeps reads equal to the reference.** -/
theorem Step.refines {sound : fmt.Sound Fits} {before after : Db fmt × Ghost}
    (step : Step sound before after) (consistent : Consistent sound before.1)
    (refines : Refines before) : Refines after := by
  intro key
  cases step with
  | write operation fits keyed =>
      refine (reading_written _ operation key).trans ?_
      refine Eq.trans ?_ (reference_concat _ operation key).symm
      rw [refines key]
  | flush room fits created pushed =>
      exact (consistent.reading_flushed fits created pushed key).trans (refines key)
  | compact room picked fits created =>
      exact (consistent.reading_compacted picked fits created key).trans (refines key)
  | reopen places listed fit =>
      exact (consistent.reading_reopened places fit key).trans (refines key)
  | note => exact refines key

end LsmStore
