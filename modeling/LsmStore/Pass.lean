import LsmStore.Reading

/-!
# One compaction pass

What a pass of `compactOnce` leaves behind, and that it changes no lookup: the
pass allocates an id, writes the merge of the picked inputs, edits the manifest
and installs the output.  Input files are never removed, since the pass itself
still owns the snapshot it picked its job in.
-/

set_option autoImplicit false

namespace LsmStore

open Foundation

variable {fmt : TableFormat} {Fits : Options → List (Key × Entry) → Prop}

/-- The records a pass appends to the manifest. -/
def compactionRecords (outputId : UInt64) (job : CompactionJob fmt) : List ManifestRecord :=
  .setNextTableId (outputId + 1) :: .addTable outputId (UInt32.ofNat job.outputLevel) ::
    (job.inputs.map SsTable.id).map .removeTable

/-- The manifest after a pass. -/
def Manifest.compacted (manifest : Manifest) (job : CompactionJob fmt) : Manifest :=
  (manifest.allocated.added manifest.nextTableId (UInt32.ofNat job.outputLevel)).removed
    (job.inputs.map SsTable.id)

/-- The database after a pass that ran a job. -/
def Db.compacted (db : Db fmt) (job : CompactionJob fmt) (file : fmt.File) (handle : fmt.Handle)
    (faults : List Verdict) : Db fmt where
  disk :=
    { db.disk.withTable db.engine.manifest.nextTableId file with
      manifest := db.disk.manifest ++
        manifestLog (compactionRecords db.engine.manifest.nextTableId job) }
  engine :=
    { db.engine with
      version := installed db.engine.version job ⟨db.engine.manifest.nextTableId, handle⟩
      manifest := db.engine.manifest.compacted job }
  faults := faults

/-- The tombstones that a pass over the current version drops. -/
def Db.drops (db : Db fmt) (job : CompactionJob fmt) : Bool :=
  dropTombstones db.engine.version db.engine.options job

/-- **What a successful pass did.** -/
theorem compactOnce_of_ok {db db' : Db fmt} {value : Unit}
    (depth : db.engine.version.levels.length = db.engine.options.maxLevels)
    (done : compactOnce db = .ok value db') :
    pickCompaction db.engine.version db.engine.options = .ok none ∧ db' = db ∨
      ∃ job file handle faults,
        pickCompaction db.engine.version db.engine.options = .ok (some job) ∧
        db.engine.manifest.lists db.engine.manifest.nextTableId = false ∧
        db.engine.manifest.nextTableId.toNat + 1 ≤ u64Max ∧
        fmt.create db.engine.options (mergedEntries db.disk.sst job (db.drops job)) =
          .ok (file, handle) ∧
        db' = db.compacted job file handle faults := by
  unfold compactOnce at done
  obtain ⟨_, _, isState, done⟩ := bind_eq_ok.mp done
  cases isState
  cases picked : pickCompaction db.engine.version db.engine.options with
  | error failure => rw [picked] at done; cases done
  | ok choice =>
      cases choice with
      | none => rw [picked] at done; cases done; exact .inl ⟨rfl, rfl⟩
      | some job =>
          rw [picked] at done
          dsimp only at done
          obtain ⟨outputId, _, allocated, done⟩ := bind_eq_ok.mp done
          obtain ⟨rfl, room, faults, rfl⟩ := nextTableId_of_ok allocated
          obtain ⟨output, _, written, done⟩ := bind_eq_ok.mp done
          obtain ⟨file, handle, faults, created, rfl, rfl⟩ := writeOutput_of_ok written
          obtain ⟨_, _, recorded, done⟩ := bind_eq_ok.mp done
          obtain ⟨_, _, added, removed⟩ := bind_eq_ok.mp recorded
          obtain ⟨unlisted, faults, rfl⟩ := addTable_of_ok added
          obtain ⟨faults, rfl⟩ := removeTables_of_ok removed
          obtain ⟨_, _, install, cleaned⟩ := bind_eq_ok.mp done
          unfold installCompaction at install
          dsimp only at install
          rw [applyCompaction_eq (outputLevel_lt_of_pick depth picked)] at install
          cases install
          rw [removeInputs_eq (inputs_mem_of_pick picked)] at cleaned
          cases cleaned
          refine .inr ⟨job, file, handle, faults, rfl, unlisted, room, created, ?_⟩
          simp [Db.compacted, Manifest.compacted, compactionRecords, manifestLog, Disk.withTable]

/-- A pass succeeds when no file operation fails, ids are left and the format
accepts the output. -/
theorem compactOnce_noFaults {sound : fmt.Sound Fits} {disk : Disk fmt} {engine : Engine fmt}
    (held : ∀ table ∈ engine.version.tablesNewestFirst, Held sound disk.sst table)
    (levelled : WellLevelled (entriesOn disk.sst) engine.version)
    (depth : engine.version.levels.length = engine.options.maxLevels) {job : CompactionJob fmt}
    (picked : pickCompaction engine.version engine.options = .ok (some job))
    (unlisted : engine.manifest.lists engine.manifest.nextTableId = false)
    (room : engine.manifest.nextTableId.toNat + 1 ≤ u64Max) {file : fmt.File}
    {handle : fmt.Handle}
    (created : fmt.create engine.options (mergedEntries disk.sst job
      (dropTombstones engine.version engine.options job)) = .ok (file, handle)) :
    compactOnce ⟨disk, engine, []⟩ =
      .ok () ((⟨disk, engine, []⟩ : Db fmt).compacted job file handle []) := by
  have admissible := levelled.admissible_of_pick depth picked
  have inputsHeld : ∀ input ∈ job.inputs, Held sound disk.sst input :=
    fun input isInput => held input (admissible.inputs_mem isInput)
  refine bind_eq_ok.mpr ⟨_, _, rfl, ?_⟩
  dsimp only
  rw [picked]
  refine bind_eq_ok.mpr ⟨_, _, nextTableId_noFaults room, ?_⟩
  refine bind_eq_ok.mpr ⟨_, _, writeOutput_noFaults sound _ file handle ?_ ?_, ?_⟩
  · exact inputsHeld
  · exact created
  refine bind_eq_ok.mpr ⟨_, _, bind_eq_ok.mpr ⟨_, _, addTable_noFaults unlisted,
    removeTables_noFaults _ _ _⟩, ?_⟩
  refine bind_eq_ok.mpr ⟨(), _, ?_, removeInputs_eq (fun input isInput =>
    admissible.inputs_mem isInput) _⟩
  unfold installCompaction
  dsimp only
  rw [applyCompaction_eq admissible.inside]
  simp [Db.compacted, Manifest.compacted, compactionRecords, manifestLog, Disk.withTable]

/-! ## Stocked versions -/

/-- Every table of the version is held by the files, ids are distinct, and the
levels below level 0 are disjoint. -/
structure Stocked (sound : fmt.Sound Fits) (files : UInt64 → Option fmt.File)
    (version : Version fmt) : Prop where
  held : ∀ table ∈ version.tablesNewestFirst, Held sound files table
  distinct : (version.tablesNewestFirst.map SsTable.id).Nodup
  disjoint : ∀ depth, 1 ≤ depth → LevelDisjoint (version.level depth)

theorem Admissible.congr {content content' : SsTable fmt → List (Key × Entry)}
    {version : Version fmt} {job : CompactionJob fmt} {drops : Bool}
    (admissible : Admissible content version job drops)
    (same : ∀ table ∈ version.tablesNewestFirst, content' table = content table) :
    Admissible content' version job drops := by
  have entries : ∀ table ∈ version.tablesNewestFirst, ∀ key,
      entryIn content' key table = entryIn content key table := by
    intro table member key
    rw [entryIn, entryIn, same table member]
  have tables := Version.tables_split admissible.inside
  have inPlace : ∀ table ∈ version.front job.outputLevel ++ version.seat job.outputLevel,
      table ∈ version.tablesNewestFirst := by
    intro table member
    rw [tables]
    exact List.mem_append_left _ member
  have behind : ∀ table ∈ version.back job.outputLevel, table ∈ version.tablesNewestFirst := by
    intro table member
    rw [tables]
    exact List.mem_append_right _ member
  refine ⟨admissible.inside, admissible.sub, ?_, ?_, admissible.hull⟩
  · refine admissible.order.imp_of_mem ?_
    intro first second member member' clear taken stays key found
    rw [entries first (inPlace first member) key] at found
    rw [entries second (inPlace second member') key]
    exact clear taken stays key found
  · intro drop input isInput table member key found
    rw [entries input (admissible.inputs_mem isInput) key] at found
    rw [entries table (behind table member) key]
    exact admissible.dropped drop input isInput table member key found

namespace Stocked

variable {sound : fmt.Sound Fits} {files : UInt64 → Option fmt.File} {version : Version fmt}
  {job : CompactionJob fmt} {drops : Bool} {output : SsTable fmt}

theorem levelled (stocked : Stocked sound files version) :
    WellLevelled (entriesOn files) version :=
  ⟨fun table member => (stocked.held table member).ranged, stocked.distinct, stocked.disjoint⟩

/-- A new file leaves the entries of the version's tables as they are. -/
theorem entriesOn_update (files : UInt64 → Option fmt.File) {id : UInt64}
    (fresh : ∀ table ∈ version.tablesNewestFirst, table.id ≠ id) (file : fmt.File) :
    ∀ table ∈ version.tablesNewestFirst,
      entriesOn (Function.update files id (some file)) table = entriesOn files table :=
  fun table member => entriesOn_congr (Function.update_of_ne (fresh table member) _ _)

theorem update (stocked : Stocked sound files version) {id : UInt64}
    (fresh : ∀ table ∈ version.tablesNewestFirst, table.id ≠ id) (file : fmt.File) :
    Stocked sound (Function.update files id (some file)) version :=
  ⟨fun table member => (stocked.held table member).congr
    (Function.update_of_ne (fresh table member) _ _), stocked.distinct, stocked.disjoint⟩

/-- Installing an admissible job keeps the version stocked. -/
theorem install (stocked : Stocked sound files version)
    (admissible : Admissible (entriesOn files) version job drops)
    (merges : Merges (entriesOn files) job drops output) (outputHeld : Held sound files output)
    (fresh : ∀ table ∈ version.tablesNewestFirst, table.id ≠ output.id) :
    Stocked sound files (installed version job output) := by
  have levelled := admissible.wellLevelled_installed stocked.levelled merges outputHeld.ranged fresh
  refine ⟨?_, levelled.distinct, levelled.disjoint⟩
  intro table member
  rcases (mem_tables_installed version job output admissible.inside).mp member with rfl | ⟨old, _⟩
  · exact outputHeld
  · exact stocked.held table old

theorem pushFront (stocked : Stocked sound files version) {table : SsTable fmt}
    {version' : Version fmt} (tableHeld : Held sound files table)
    (fresh : ∀ other ∈ version.tablesNewestFirst, other.id ≠ table.id)
    (pushed : version.pushFront table = .ok version') : Stocked sound files version' := by
  have levelled := stocked.levelled.pushFront tableHeld.ranged fresh pushed
  refine ⟨?_, levelled.distinct, levelled.disjoint⟩
  intro other member
  rw [(pushFront_eq_ok pushed).1] at member
  rcases List.mem_cons.mp member with rfl | old
  · exact tableHeld
  · exact stocked.held other old

end Stocked

/-- A table created from valid entries is held by the files. -/
theorem held_of_create (sound : fmt.Sound Fits) (files : UInt64 → Option fmt.File) (id : UInt64)
    {options : Options} {entries : List (Key × Entry)} {file : fmt.File} {handle : fmt.Handle}
    (valid : ValidRun entries) (fits : Fits options entries)
    (created : fmt.create options entries = .ok (file, handle)) :
    Held sound (Function.update files id (some file)) ⟨id, handle⟩ ∧
      entriesOn (Function.update files id (some file)) ⟨id, handle⟩ = entries := by
  obtain ⟨file', handle', made, holds⟩ := sound.create_ok valid fits
  obtain ⟨rfl, rfl⟩ := Prod.mk.inj (Except.ok.inj (made.symm.trans created))
  have present : Function.update files id (some file') (SsTable.id ⟨id, handle'⟩ : UInt64) =
      some file' := Function.update_self ..
  exact ⟨Held.intro sound present holds, entriesOn_eq sound present holds⟩

section Output

variable {sound : fmt.Sound Fits} {db : Db fmt} {job : CompactionJob fmt} {file : fmt.File}
  {handle : fmt.Handle}

/-- The output of a picked job, once its file is written: the job may still be
installed, and the output holds the merge of the inputs. -/
theorem Stocked.output (stocked : Stocked sound db.disk.sst db.engine.version)
    (depth : db.engine.version.levels.length = db.engine.options.maxLevels)
    (fresh : ∀ table ∈ db.engine.version.tablesNewestFirst,
      table.id ≠ db.engine.manifest.nextTableId)
    (picked : pickCompaction db.engine.version db.engine.options = .ok (some job))
    (fits : Fits db.engine.options (mergedEntries db.disk.sst job (db.drops job)))
    (created : fmt.create db.engine.options (mergedEntries db.disk.sst job (db.drops job)) =
      .ok (file, handle)) :
    Admissible (entriesOn (Function.update db.disk.sst db.engine.manifest.nextTableId (some file)))
        db.engine.version job (db.drops job) ∧
      Merges (entriesOn (Function.update db.disk.sst db.engine.manifest.nextTableId (some file)))
        job (db.drops job) ⟨db.engine.manifest.nextTableId, handle⟩ ∧
      Held sound (Function.update db.disk.sst db.engine.manifest.nextTableId (some file))
        ⟨db.engine.manifest.nextTableId, handle⟩ := by
  have admissible := stocked.levelled.admissible_of_pick depth picked
  have inputsHeld : ∀ input ∈ job.inputs, Held sound db.disk.sst input :=
    fun input isInput => stocked.held input (admissible.inputs_mem isInput)
  obtain ⟨_, valid, merged⟩ := mergedEntries_spec inputsHeld (db.drops job)
  obtain ⟨outputHeld, outputEntries⟩ := held_of_create sound db.disk.sst
    db.engine.manifest.nextTableId valid fits created
  have same := Stocked.entriesOn_update db.disk.sst fresh file
  refine ⟨admissible.congr same, ?_, outputHeld⟩
  intro key
  rw [entryIn, outputEntries, merged key,
    lookupIn_congr fun input isInput => same input (admissible.inputs_mem isInput)]

/-- **A pass that ran a job keeps the version stocked and changes no lookup.** -/
theorem stocked_compacted (stocked : Stocked sound db.disk.sst db.engine.version)
    (depth : db.engine.version.levels.length = db.engine.options.maxLevels)
    (fresh : ∀ table ∈ db.engine.version.tablesNewestFirst,
      table.id ≠ db.engine.manifest.nextTableId)
    (picked : pickCompaction db.engine.version db.engine.options = .ok (some job))
    (fits : Fits db.engine.options (mergedEntries db.disk.sst job (db.drops job)))
    (created : fmt.create db.engine.options (mergedEntries db.disk.sst job (db.drops job)) =
      .ok (file, handle)) (faults : List Verdict) :
    Stocked sound (db.compacted job file handle faults).disk.sst
        (db.compacted job file handle faults).engine.version ∧
      ∀ key, visible ((db.compacted job file handle faults).tableLookup key) =
        visible (db.tableLookup key) := by
  obtain ⟨admissible, merges, outputHeld⟩ := stocked.output depth fresh picked fits created
  have stocked' := stocked.update fresh file
  refine ⟨stocked'.install admissible merges outputHeld fresh, ?_⟩
  intro key
  refine (admissible.lookup_installed stocked'.levelled merges key).trans ?_
  rw [lookupIn_congr (Stocked.entriesOn_update db.disk.sst fresh file)]
  rfl

end Output

/-! ## Over tables kept as their entries -/

section Content

variable {sizing : BloomSizing} {fileSize : Options → List (Key × Entry) → Nat}

end Content

/-- Options under which a single table in level 0 is compacted. -/
def eagerOptions (maxLevels : Nat) : Options where
  memtableSizeBytes := 100
  l0CompactionTrigger := 1
  levelSizeMultiplier := 2
  maxLevels := maxLevels
  bloomFalsePositiveRate := 0.01
  blockSize := 64
  cacheSizeBytes := 64

/-- The file made from some entries. -/
def madeOf (entries : List (Key × Entry)) : ContentFile :=
  ⟨entries, (BloomFilter.new smallSizing (max entries.length 1) 0.01).insertAll
    (entries.map (·.1)), entries.length⟩

/-- A tombstone in level 0 over a value in level 1. -/
def shadowed : Db smallTables where
  disk :=
    { wal := []
      manifest := []
      tmp := []
      sst := Function.update (Function.update (fun _ => none) 1
        (some (madeOf [([1], .value [10]), ([2], .value [20])]))) 2
        (some (madeOf [([1], .tombstone)])) }
  engine :=
    { options := eagerOptions 2
      memtable := MemTable.new
      immutable := none
      version := ⟨[[⟨2, (madeOf [([1], .tombstone)]).handle⟩],
        [⟨1, (madeOf [([1], .value [10]), ([2], .value [20])]).handle⟩]]⟩
      manifest := ⟨3, [(1, 1), (2, 0)]⟩
      cache := ()
      lastError := none
      bloomSkips := 0
      sstableReads := 0
      inbox := 0
      running := true }
  faults := []

end LsmStore
