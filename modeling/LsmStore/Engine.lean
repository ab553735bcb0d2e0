import LsmStore.Manifest
import LsmStore.Merge
import LsmStore.Version
import LsmStore.Wal

/-!
# The engine

The engine's state is what it keeps in memory and what it has written to its
directory.  An operation is an action on that state which ends with a value, an
error or a panic, and keeps the effects it had before it failed.

Every file operation asks a plan of verdicts whether it is carried out; a
verdict of failure also says how far the operation got.  An empty plan means
that no file operation fails.
-/

set_option autoImplicit false

namespace LsmStore

open Foundation

/-- The outcome of a file operation: carried out, or failed after some progress. -/
inductive Verdict where
  | done
  | fail (progress : Nat)

/-- The database directory. -/
structure Disk (fmt : TableFormat) where
  /-- The write-ahead log. -/
  wal : Bytes
  /-- The manifest. -/
  manifest : Bytes
  /-- The ids of `.tmp` table files; their contents are never read. -/
  tmp : List UInt64
  /-- The completed table files. -/
  sst : UInt64 → Option fmt.File

/-- The in-memory state of an open engine and of its worker. -/
structure Engine (fmt : TableFormat) where
  options : Options
  memtable : MemTable
  /-- The frozen memtable of a flush that has not finished. -/
  immutable : Option MemTable
  version : Version fmt
  manifest : Manifest
  cache : fmt.Cache
  lastError : Option String
  bloomSkips : Nat
  sstableReads : Nat
  /-- Compaction requests that the worker has not taken yet. -/
  inbox : Nat
  /-- Whether the worker thread is running. -/
  running : Bool

/-- An open database: its directory, its engine, and the verdicts on the coming
file operations. -/
structure Db (fmt : TableFormat) where
  disk : Disk fmt
  engine : Engine fmt
  faults : List Verdict

/-- An operation of the engine. -/
abbrev Action (fmt : TableFormat) (α : Type) : Type := EStateM Failure (Db fmt) α

variable {fmt : TableFormat}

/-- The error of a failed file operation. -/
def ioFailure : Failure := .error (.io "file operation failed")

/-- The state as it is. -/
def current : Action fmt (Db fmt) := fun db => .ok db db

/-- The verdict on the next file operation. -/
def fileOp : Action fmt Verdict := fun db =>
  match db.faults with
  | [] => .ok .done db
  | verdict :: rest => .ok verdict { db with faults := rest }

/-! ## The write-ahead log -/

/-- Encodes an operation and appends it to the log. -/
def walAppend (operation : Operation) : Action fmt Unit := fun db =>
  match (Wal.mk db.disk.wal).append operation with
  | .error cause => .error (.error cause) db
  | .ok (_, wal) =>
      match fileOp db with
      | .ok .done db => .ok () { db with disk := { db.disk with wal := wal.contents } }
      | .ok (.fail progress) db =>
          .error ioFailure
            { db with
              disk := { db.disk with wal := wal.contents.take (db.disk.wal.length + progress) } }
      | .error failure db => .error failure db

/-- Syncs the log. -/
def walSync : Action fmt Unit := fun db =>
  match fileOp db with
  | .ok .done db => .ok () db
  | .ok (.fail _) db => .error ioFailure db
  | .error failure db => .error failure db

/-- Empties the log; a failure may come before or after the file is cut. -/
def walTruncate : Action fmt Unit := fun db =>
  match fileOp db with
  | .ok .done db => .ok () { db with disk := { db.disk with wal := [] } }
  | .ok (.fail 0) db => .error ioFailure db
  | .ok (.fail (_ + 1)) db => .error ioFailure { db with disk := { db.disk with wal := [] } }
  | .error failure db => .error failure db

/-! ## The manifest -/

/-- Appends a record to the manifest file. -/
def manifestAppend (record : ManifestRecord) : Action fmt Unit := fun db =>
  match fileOp db with
  | .ok .done db =>
      .ok () { db with disk := { db.disk with manifest := db.disk.manifest ++ record.encode } }
  | .ok (.fail progress) db =>
      .error ioFailure
        { db with
          disk := { db.disk with manifest := db.disk.manifest ++ record.encode.take progress } }
  | .error failure db => .error failure db

/-- Changes the manifest kept in memory. -/
def modifyManifest (change : Manifest → Manifest) : Action fmt Unit := fun db =>
  .ok () { db with engine := { db.engine with manifest := change db.engine.manifest } }

/-- Allocates and persists the next table id. -/
def nextTableId : Action fmt UInt64 := do
  let id := (← current).engine.manifest.nextTableId
  if id.toNat + 1 > u64Max then throw .panic
  modifyManifest fun manifest => { manifest with nextTableId := id + 1 }
  manifestAppend (.setNextTableId (id + 1))
  return id

/-- Records that a table belongs to a level. -/
def addTable (id : UInt64) (level : UInt32) : Action fmt Unit := do
  if (← current).engine.manifest.lists id then throw (.error .invalidManifest)
  manifestAppend (.addTable id level)
  modifyManifest fun manifest => { manifest with tables := manifest.tables ++ [(id, level)] }

/-- Drops tables from the live set, one record each. -/
def removeTables : List UInt64 → Action fmt Unit
  | [] => return ()
  | id :: rest => do
      manifestAppend (.removeTable id)
      modifyManifest fun manifest =>
        { manifest with tables := manifest.tables.filter fun table => table.1 != id }
      removeTables rest

/-! ## Table files -/

/-- Writes a table under its `.tmp` name and renames it into place; a failure may
come before the file exists, before the rename, or after it. -/
def createTable (id : UInt64) (entries : List (Key × Entry)) : Action fmt (SsTable fmt) := fun db =>
  match fmt.create db.engine.options entries with
  | .error failure => .error failure db
  | .ok (file, handle) =>
      let finished (disk : Disk fmt) : Disk fmt :=
        { disk with tmp := disk.tmp.erase id, sst := Function.update disk.sst id (some file) }
      match fileOp db with
      | .ok .done db => .ok ⟨id, handle⟩ { db with disk := finished db.disk }
      | .ok (.fail 0) db => .error ioFailure db
      | .ok (.fail 1) db =>
          .error ioFailure { db with disk := { db.disk with tmp := id :: db.disk.tmp } }
      | .ok (.fail (_ + 2)) db => .error ioFailure { db with disk := finished db.disk }
      | .error failure db => .error failure db

/-- Removes a table file; a failure is ignored. -/
def removeFile (id : UInt64) : Action fmt Unit := fun db =>
  match fileOp db with
  | .ok .done db =>
      .ok () { db with disk := { db.disk with sst := Function.update db.disk.sst id none } }
  | .ok (.fail _) db => .ok () db
  | .error failure db => .error failure db

/-! ## Reading -/

def validateKey (key : Key) : Except Error Unit :=
  if key = [] then .error .emptyKey
  else if key.length > maxKeySize then .error .keyTooLarge
  else .ok ()

def validateValue (value : Bytes) : Except Error Unit :=
  if value.length > maxValueSize then .error .valueTooLarge else .ok ()

/-- The loop of `getFromTables`. -/
def searchTables (key : Key) : List (SsTable fmt) → Action fmt (Option Bytes)
  | [], db => .ok none db
  | table :: rest, db =>
      if !fmt.containsRange table.handle key then searchTables key rest db
      else if !fmt.mightContain table.handle key then
        searchTables key rest
          { db with engine := { db.engine with bloomSkips := db.engine.bloomSkips + 1 } }
      else
        let found := fmt.get table.id table.handle (db.disk.sst table.id) key db.engine.cache
        let db : Db fmt :=
          { db with
            engine :=
              { db.engine with sstableReads := db.engine.sstableReads + 1, cache := found.2 } }
        match found.1 with
        | .error cause => .error (.error cause) db
        | .ok (some (.value bytes)) => .ok (some bytes) db
        | .ok (some .tombstone) => .ok none db
        | .ok none => searchTables key rest db

/-- Looks a key up in the tables of the current version, newest first. -/
def getFromTables (key : Key) : Action fmt (Option Bytes) := fun db =>
  searchTables key db.engine.version.tablesNewestFirst db

/-- The newest visible value of a key. -/
def get (key : Key) : Action fmt (Option Bytes) := fun db =>
  match validateKey key with
  | .error cause => .error (.error cause) db
  | .ok () =>
      match db.engine.memtable.get key with
      | some (.value bytes) => .ok (some bytes) db
      | some .tombstone => .ok none db
      | none =>
          match db.engine.immutable.bind (·.get key) with
          | some (.value bytes) => .ok (some bytes) db
          | some .tombstone => .ok none db
          | none => getFromTables key db

/-- What an action returns, without the state it leaves. -/
def Db.eval {α : Type} (db : Db fmt) (action : Action fmt α) : Except Failure α :=
  match action db with
  | .ok value _ => .ok value
  | .error failure _ => .error failure

/-! ## Flushing -/

/-- Freezes the memtable: a copy stays readable while its entries are written. -/
def freeze : Action fmt (List (Key × Entry)) := fun db =>
  let snapshot := db.engine.memtable.iter
  .ok snapshot
    { db with
      engine :=
        { db.engine with memtable := MemTable.new, immutable := some (MemTable.ofRun snapshot) } }

/-- Puts a flushed table in front of level 0 of the current version. -/
def pushFront (table : SsTable fmt) : Action fmt Unit := fun db =>
  match db.engine.version.pushFront table with
  | .error failure => .error failure db
  | .ok version => .ok () { db with engine := { db.engine with version := version } }

/-- Forgets the frozen memtable. -/
def clearImmutable : Action fmt Unit := fun db =>
  .ok () { db with engine := { db.engine with immutable := none } }

/-- Writes the memtable into a table of level 0 and empties the log. -/
def flushMemtable : Action fmt Unit := do
  if (← current).engine.memtable.isEmpty then walSync
  else
    let snapshot ← freeze
    let id ← nextTableId
    let table ← createTable id snapshot
    addTable id 0
    pushFront table
    walTruncate
    clearImmutable

/-- Asks the worker for a compaction once level 0 is long enough. -/
def maybeRequestCompaction : Action fmt Unit := fun db =>
  if (db.engine.version.level 0).length ≥ db.engine.options.l0CompactionTrigger ∧
      db.engine.running = true then
    .ok () { db with engine := { db.engine with inbox := db.engine.inbox + 1 } }
  else .ok () db

/-- Flushes the memtable and asks for a compaction if needed. -/
def flush : Action fmt Unit := do
  flushMemtable
  maybeRequestCompaction

/-! ## Writing -/

/-- Applies an operation to the memtable. -/
def applyOperation (operation : Operation) : Action fmt Unit := fun db =>
  .ok () { db with engine := { db.engine with memtable := apply db.engine.memtable operation } }

/-- Logs, syncs and applies an operation, then flushes a full memtable. -/
def write (operation : Operation) : Action fmt Unit := do
  walAppend operation
  walSync
  applyOperation operation
  let db ← current
  if db.engine.memtable.approximateSize ≥ db.engine.options.memtableSizeBytes then flush

/-- Stores a value under a key. -/
def put (key value : Bytes) : Action fmt Unit := fun db =>
  match validateKey key with
  | .error cause => .error (.error cause) db
  | .ok () =>
      match validateValue value with
      | .error cause => .error (.error cause) db
      | .ok () => write (.put key value) db

/-- Deletes a key. -/
def delete (key : Bytes) : Action fmt Unit := fun db =>
  match validateKey key with
  | .error cause => .error (.error cause) db
  | .ok () => write (.delete key) db

/-! ## Compaction -/

/-- Opens an iterator on every input table. -/
def inputIterators (files : UInt64 → Option fmt.File) :
    List (SsTable fmt) → Except Error (List (List (Except Error (Key × Entry))))
  | [] => .ok []
  | table :: rest =>
      match fmt.iter table.handle (files table.id) with
      | .error cause => .error cause
      | .ok items =>
          match inputIterators files rest with
          | .error cause => .error cause
          | .ok iterators => .ok (items :: iterators)

/-- Merges the inputs of a job into a new table. -/
def writeOutput (snapshot : Version fmt) (job : CompactionJob fmt) (outputId : UInt64) :
    Action fmt (SsTable fmt) := fun db =>
  match inputIterators db.disk.sst job.inputs with
  | .error cause => .error (.error cause) db
  | .ok iterators =>
      match mergeTables iterators (dropTombstones snapshot db.engine.options job) with
      | .error cause => .error (.error cause) db
      | .ok merged => createTable outputId merged db

/-- Enters the output into the manifest and removes the inputs from it. -/
def recordCompaction (outputId : UInt64) (job : CompactionJob fmt) : Action fmt Unit := do
  addTable outputId (UInt32.ofNat job.outputLevel)
  removeTables (job.inputs.map SsTable.id)

/-- Installs the output in the current version. -/
def installCompaction (job : CompactionJob fmt) (output : SsTable fmt) : Action fmt Unit := fun db =>
  match applyCompaction db.engine.version job output with
  | .error failure => .error failure db
  | .ok version => .ok () { db with engine := { db.engine with version := version } }

/-- How many owners a table has while a job cleans up: the loop variable, the
snapshot of the version the job was picked in, and the current version. -/
def strongCount (snapshot current : Version fmt) (table : SsTable fmt) : Nat :=
  1 + (snapshot.tablesNewestFirst.countP fun other => other.id == table.id) +
    (current.tablesNewestFirst.countP fun other => other.id == table.id)

/-- Removes the files of inputs that nobody else owns. -/
def removeInputs (snapshot : Version fmt) : List (SsTable fmt) → Action fmt Unit
  | [] => return ()
  | table :: rest => do
      if strongCount snapshot (← current).engine.version table = 1 then removeFile table.id
      removeInputs snapshot rest

/-- Runs one compaction pass. -/
def compactOnce : Action fmt Unit := do
  let db ← current
  let snapshot := db.engine.version
  match pickCompaction snapshot db.engine.options with
  | .error failure => throw failure
  | .ok none => return ()
  | .ok (some job) =>
      let outputId ← nextTableId
      let output ← writeOutput snapshot job outputId
      recordCompaction outputId job
      installCompaction job output
      removeInputs snapshot job.inputs

/-- The worker takes one request and runs a pass.  An error is kept for the
engine to show; a panic ends the worker's thread. -/
def workerPass : Action fmt Unit := fun db =>
  if db.engine.inbox = 0 ∨ db.engine.running = false then .ok () db
  else
    let taken : Db fmt := { db with engine := { db.engine with inbox := db.engine.inbox - 1 } }
    match compactOnce taken with
    | .ok () db => .ok () db
    | .error (.error cause) db =>
        .ok () { db with engine := { db.engine with lastError := some cause.toString } }
    | .error .panic db => .ok () { db with engine := { db.engine with running := false } }

/-- The worker handles the requests sent before its shutdown message. -/
def drain : Nat → Action fmt Unit
  | 0 => return ()
  | requests + 1 => do
      workerPass
      drain requests

/-- Waits for the worker to finish. -/
def shutdown : Action fmt Unit := do
  drain (← current).engine.inbox

/-! ## Opening -/

/-- Opens the tables of the manifest into their levels. -/
def loadTables (disk : Disk fmt) (maxLevels : Nat) :
    List (UInt64 × UInt32) → Version fmt → Except Failure (Version fmt)
  | [], version => .ok version
  | (id, level) :: rest, version =>
      match disk.sst id with
      | none => .error (.error .invalidManifest)
      | some file =>
          match fmt.openFile file with
          | .error cause => .error (.error cause)
          | .ok handle =>
              let depth := min level.toNat (maxLevels - 1)
              if depth < version.levels.length then
                loadTables disk maxLevels rest
                  ⟨version.levels.modify depth (· ++ [⟨id, handle⟩])⟩
              else .error .panic

/-- Level 0 is recorded oldest first and searched newest first; the deeper levels
are sorted by smallest key. -/
def orderLevels (version : Version fmt) : Version fmt :=
  match version.levels with
  | [] => ⟨[]⟩
  | l0 :: deeper => ⟨l0.reverse :: deeper.map sortBySmallest⟩

/-- Opens the database in a directory. -/
def openWith (options : Options) (disk : Disk fmt) : Except Failure (Engine fmt) :=
  match Manifest.recover disk.manifest with
  | .error cause => .error (.error cause)
  | .ok manifest =>
      match loadTables disk options.maxLevels manifest.tables
          (Version.withMaxLevels fmt options.maxLevels) with
      | .error failure => .error failure
      | .ok version =>
          match (Wal.openLog (some disk.wal)).replay with
          | .error cause => .error (.error cause)
          | .ok operations =>
              .ok
                { options
                  memtable := applyAll operations
                  immutable := none
                  version := orderLevels version
                  manifest
                  cache := fmt.emptyCache options
                  lastError := none
                  bloomSkips := 0
                  sstableReads := 0
                  inbox := 0
                  running := true }

/-- An empty directory. -/
def Disk.empty (fmt : TableFormat) : Disk fmt where
  wal := []
  manifest := []
  tmp := []
  sst _ := none

/-- Closes the database and opens it again with the same options. -/
def reopen : Action fmt Unit := do
  shutdown
  let db ← current
  match openWith db.engine.options db.disk with
  | .error failure => throw failure
  | .ok engine => set { db with engine := engine }

/-! ## Runs -/

/-- What a user of the database, and the scheduler of its worker, can do. -/
inductive Command where
  | put (key value : Bytes)
  | delete (key : Bytes)
  | get (key : Bytes)
  | flush
  | compact
  | workerPass
  | reopen
  deriving DecidableEq

/-- The action of a command. -/
def Command.action : Command → Action fmt Unit
  | .put key value => LsmStore.put key value
  | .delete key => LsmStore.delete key
  | .get key => discard (LsmStore.get key)
  | .flush => LsmStore.flush
  | .compact => compactOnce
  | .workerPass => LsmStore.workerPass
  | .reopen => LsmStore.reopen

/-- The state after a command.  An operation that returns an error leaves an
engine to go on with; a panic and a failed reopening do not. -/
def execute (command : Command) (db : Db fmt) : Except Failure (Db fmt) :=
  match command.action db with
  | .ok () db => .ok db
  | .error .panic _ => .error .panic
  | .error (.error cause) db => if command = .reopen then .error (.error cause) else .ok db

/-- The state after a list of commands. -/
def executeAll : List Command → Db fmt → Except Failure (Db fmt)
  | [], db => .ok db
  | command :: rest, db =>
      match execute command db with
      | .error failure => .error failure
      | .ok next => executeAll rest next

/-- A new database in an empty directory. -/
def openNew (fmt : TableFormat) (options : Options) : Except Failure (Db fmt) :=
  match openWith options (Disk.empty fmt) with
  | .error failure => .error failure
  | .ok engine => .ok ⟨Disk.empty fmt, engine, []⟩

end LsmStore
