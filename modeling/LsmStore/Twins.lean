import LsmStore.Actions
import LsmStore.Foundation.Lockstep

/-!
# Databases that go on in step

Two databases that differ in something the engine does not look at do the same: they return
the same values, fail in the same way, and still differ in no more than that.  What has to be
said about a relation between databases is that its elementary actions are in step
(`Twins`); flushes, writes and compactions, which are put together from them, then are.

What the engine notes for itself, the cached blocks, the counters, the requests to the
worker and its last error, is looked at by a read and by a request only.  So databases that
differ in their notes are twins (`Apart.twins`), whatever is known of the notes.
-/

set_option autoImplicit false

namespace LsmStore

open Foundation

variable {fmt : TableFormat}

/-- A relation between databases with the same options, memtable and version, such that the
elementary actions are in step. -/
structure Twins (related : Db fmt → Db fmt → Prop) : Prop where
  options_eq : ∀ {db twin}, related db twin → twin.engine.options = db.engine.options
  memtable_eq : ∀ {db twin}, related db twin → twin.engine.memtable = db.engine.memtable
  version_eq : ∀ {db twin}, related db twin → twin.engine.version = db.engine.version
  walAppend : ∀ operation, InStep related (walAppend operation) (walAppend operation)
  walSync : InStep related walSync walSync
  walTruncate : InStep related walTruncate walTruncate
  nextTableId : InStep related nextTableId nextTableId
  addTable : ∀ id level, InStep related (addTable id level) (addTable id level)
  removeTables : ∀ ids, InStep related (removeTables ids) (removeTables ids)
  createTable : ∀ id entries, InStep related (createTable id entries) (createTable id entries)
  removeFile : ∀ id, InStep related (removeFile id) (removeFile id)
  freeze : InStep related freeze freeze
  pushFront : ∀ table, InStep related (pushFront table) (pushFront table)
  clearImmutable : InStep related clearImmutable clearImmutable
  applyOperation : ∀ operation, InStep related (applyOperation operation) (applyOperation operation)
  installCompaction : ∀ job output,
    InStep related (installCompaction job output) (installCompaction job output)

namespace Twins

variable {related : Db fmt → Db fmt → Prop} (twins : Twins related)

/-- Reading the state and going on with what it holds. -/
theorem current {α : Type} {next next' : Db fmt → Action fmt α}
    (then_ : ∀ db twin, related db twin → InStep related (next db) (next' twin)) :
    InStep related (LsmStore.current >>= next) (LsmStore.current >>= next') :=
  fun db twin reached => then_ db twin reached db twin reached

include twins

theorem flushMemtable : InStep related (flushMemtable : Action fmt Unit) flushMemtable := by
  refine current fun db twin reached => ?_
  rw [twins.memtable_eq reached]
  split
  · exact twins.walSync
  · refine twins.freeze.bind fun snapshot => twins.nextTableId.bind fun id => ?_
    refine (twins.createTable id snapshot).bind fun table => ?_
    refine (twins.addTable id 0).bind fun _ => (twins.pushFront table).bind fun _ => ?_
    exact twins.walTruncate.bind fun _ => twins.clearImmutable

theorem recordCompaction (outputId : UInt64) (job : CompactionJob fmt) :
    InStep related (recordCompaction outputId job) (recordCompaction outputId job) :=
  (twins.addTable outputId _).bind fun _ => twins.removeTables _

theorem removeInputs (snapshot : Version fmt) (inputs : List (SsTable fmt)) :
    InStep related (removeInputs snapshot inputs) (removeInputs snapshot inputs) := by
  induction inputs with
  | nil => exact .pure ()
  | cons table rest ih =>
      refine current fun db twin reached => ?_
      rw [twins.version_eq reached]
      split
      · exact (twins.removeFile table.id).bind fun _ => ih
      · exact (InStep.pure ()).bind fun _ => ih

/-- A pass is in step if the merges that it may begin with are. -/
theorem compactOnce {db twin : Db fmt} (reached : related db twin)
    (output : ∀ job, pickCompaction db.engine.version db.engine.options = .ok (some job) →
      ∀ outputId mid mid', LsmStore.nextTableId db = .ok outputId mid →
        LsmStore.nextTableId twin = .ok outputId mid' → related mid mid' →
          EndsAlike related (writeOutput db.engine.version job outputId mid)
            (writeOutput db.engine.version job outputId mid')) :
    EndsAlike related (compactOnce db) (compactOnce twin) := by
  unfold LsmStore.compactOnce
  rw [bind_of_ok (show LsmStore.current db = .ok db db from rfl),
    bind_of_ok (show LsmStore.current twin = .ok twin twin from rfl)]
  rw [twins.version_eq reached, twins.options_eq reached]
  cases picked : pickCompaction db.engine.version db.engine.options with
  | error failure => exact .error failure reached
  | ok choice =>
      cases choice with
      | none => exact .ok () reached
      | some job =>
          dsimp only
          have begins := twins.nextTableId db twin reached
          cases taken' : LsmStore.nextTableId twin with
          | error failure mid' =>
              obtain ⟨mid, taken, reached'⟩ := begins.of_error' taken'
              rw [bind_of_error taken, bind_of_error taken']
              exact EndsAlike.error failure reached'
          | ok outputId mid' =>
              obtain ⟨mid, taken, reached'⟩ := begins.of_ok' taken'
              rw [bind_of_ok taken, bind_of_ok taken']
              refine EndsAlike.bind (output job picked outputId mid mid' taken taken' reached')
                fun table => ?_
              refine (twins.recordCompaction outputId job).bind fun _ => ?_
              exact (twins.installCompaction job table).bind fun _ =>
                twins.removeInputs _ job.inputs

section Requests

variable (requests : InStep related maybeRequestCompaction maybeRequestCompaction)

include requests

theorem flush : InStep related (flush : Action fmt Unit) flush :=
  twins.flushMemtable.bind fun _ => requests

theorem write (operation : Operation) :
    InStep related (write operation : Action fmt Unit) (write operation) := by
  refine (twins.walAppend operation).bind fun _ => twins.walSync.bind fun _ => ?_
  refine (twins.applyOperation operation).bind fun _ => current fun db twin reached => ?_
  rw [twins.memtable_eq reached, twins.options_eq reached]
  split
  · exact twins.flush requests
  · exact .pure ()

theorem put (key value : Bytes) :
    InStep related (put key value : Action fmt Unit) (put key value) := by
  intro db twin reached
  unfold LsmStore.put
  cases validateKey key with
  | error cause => exact .error _ reached
  | ok _ =>
      cases validateValue value with
      | error cause => exact .error _ reached
      | ok _ => exact twins.write requests _ db twin reached

theorem delete (key : Bytes) :
    InStep related (delete key : Action fmt Unit) (delete key) := by
  intro db twin reached
  unfold LsmStore.delete
  cases validateKey key with
  | error cause => exact .error _ reached
  | ok _ => exact twins.write requests _ db twin reached

end Requests

end Twins

/-- Commands that end alike leave related databases. -/
theorem execute_of_alike {related : Db fmt → Db fmt → Prop} {command : Command}
    {db twin next : Db fmt} (alike : EndsAlike related (command.action db) (command.action twin))
    (executed : execute command db = .ok next) :
    ∃ next', execute command twin = .ok next' ∧ related next next' := by
  unfold execute at executed ⊢
  generalize command.action db = ended at alike executed
  generalize command.action twin = ended' at alike
  cases alike with
  | ok value reached =>
      cases executed
      exact ⟨_, rfl, reached⟩
  | error failure reached =>
      cases failure with
      | panic => cases executed
      | error cause =>
          dsimp only at executed ⊢
          by_cases reopens : command = .reopen
          · rw [if_pos reopens] at executed
            cases executed
          · rw [if_neg reopens] at executed ⊢
            cases executed
            exact ⟨_, rfl, reached⟩

/-! ## Databases that differ in their notes -/

/-- What an engine notes for itself: what it has cached, counted, requested and reported. -/
structure Notes (fmt : TableFormat) where
  cache : fmt.Cache
  lastError : Option String
  bloomSkips : Nat
  sstableReads : Nat
  inbox : Nat
  running : Bool

/-- The notes of an engine. -/
def Engine.notes (engine : Engine fmt) : Notes fmt where
  cache := engine.cache
  lastError := engine.lastError
  bloomSkips := engine.bloomSkips
  sstableReads := engine.sstableReads
  inbox := engine.inbox
  running := engine.running

/-- The engine with other notes. -/
def Engine.annotated (engine : Engine fmt) (notes : Notes fmt) : Engine fmt :=
  { engine with
    cache := notes.cache
    lastError := notes.lastError
    bloomSkips := notes.bloomSkips
    sstableReads := notes.sstableReads
    inbox := notes.inbox
    running := notes.running }

/-- The notes after a request to the worker. -/
def Notes.requested (notes : Notes fmt) : Notes fmt :=
  if notes.running = true then { notes with inbox := notes.inbox + 1 } else notes

theorem maybeRequestCompaction_eq (disk : Disk fmt) (engine : Engine fmt) (faults : List Verdict) :
    maybeRequestCompaction ⟨disk, engine, faults⟩ =
      .ok ()
        (if (engine.version.level 0).length ≥ engine.options.l0CompactionTrigger then
          ⟨disk, engine.annotated engine.notes.requested, faults⟩
        else ⟨disk, engine, faults⟩) := by
  unfold maybeRequestCompaction Notes.requested
  by_cases long : (engine.version.level 0).length ≥ engine.options.l0CompactionTrigger
  · by_cases alive : engine.running = true
    · rw [if_pos ⟨long, alive⟩, if_pos long, if_pos (show engine.notes.running = true from alive)]
      rfl
    · rw [if_neg fun both => alive both.2, if_pos long,
        if_neg (show ¬ engine.notes.running = true from alive)]
      rfl
  · rw [if_neg fun both => long both.1, if_neg long]

/-- The databases differ in their notes only, and the notes are related. -/
inductive Apart (related : Notes fmt → Notes fmt → Prop) : Db fmt → Db fmt → Prop
  | intro {disk : Disk fmt} {engine : Engine fmt} {faults : List Verdict} (notes : Notes fmt)
      (differs : related engine.notes notes) :
      Apart related ⟨disk, engine, faults⟩ ⟨disk, engine.annotated notes, faults⟩

namespace Apart

variable {related : Notes fmt → Notes fmt → Prop}

theorem modifyManifest (change : Manifest → Manifest) :
    InStep (Apart related) (modifyManifest change : Action fmt Unit) (modifyManifest change) := by
  rintro _ _ ⟨notes, differs⟩
  exact .ok () (.intro notes differs)

theorem manifestAppend (record : ManifestRecord) :
    InStep (Apart related) (manifestAppend record : Action fmt Unit) (manifestAppend record) := by
  rintro _ _ ⟨notes, differs⟩
  rename_i disk engine faults
  cases faults with
  | nil => exact .ok () (.intro notes differs)
  | cons verdict rest =>
      cases verdict with
      | done => exact .ok () (.intro notes differs)
      | fail progress => exact .error _ (.intro notes differs)

theorem nextTableId : InStep (Apart related) (nextTableId : Action fmt UInt64) nextTableId := by
  refine Twins.current ?_
  rintro _ _ ⟨notes, differs⟩
  dsimp only [Engine.annotated]
  split
  · exact (InStep.throw _).bind fun _ => (modifyManifest _).bind fun _ =>
      (manifestAppend _).bind fun _ => .pure _
  · exact (modifyManifest _).bind fun _ => (manifestAppend _).bind fun _ => .pure _

theorem addTable (id : UInt64) (level : UInt32) :
    InStep (Apart related) (addTable id level : Action fmt Unit) (addTable id level) := by
  refine Twins.current ?_
  rintro _ _ ⟨notes, differs⟩
  rename_i disk engine faults
  change InStep _ (if engine.manifest.lists id then _ else _)
    (if engine.manifest.lists id then _ else _)
  split
  · exact (InStep.throw _).bind fun _ => (manifestAppend _).bind fun _ => modifyManifest _
  · exact (manifestAppend _).bind fun _ => modifyManifest _

theorem removeTables (ids : List UInt64) :
    InStep (Apart related) (removeTables ids : Action fmt Unit) (removeTables ids) := by
  induction ids with
  | nil => exact .pure ()
  | cons id rest ih =>
      exact (manifestAppend _).bind fun _ => (modifyManifest _).bind fun _ => ih

/-- **Databases that differ in their notes are twins.** -/
theorem twins : Twins (Apart related) where
  options_eq := by
    rintro _ _ ⟨notes, differs⟩
    rfl
  memtable_eq := by
    rintro _ _ ⟨notes, differs⟩
    rfl
  version_eq := by
    rintro _ _ ⟨notes, differs⟩
    rfl
  walAppend operation := by
    rintro _ _ ⟨notes, differs⟩
    rename_i disk engine faults
    unfold walAppend
    dsimp only
    cases (Wal.mk disk.wal).append operation with
    | error cause => exact .error _ (.intro notes differs)
    | ok appended =>
        cases faults with
        | nil => exact .ok _ (.intro notes differs)
        | cons verdict rest =>
            cases verdict with
            | done => exact .ok _ (.intro notes differs)
            | fail progress => exact .error _ (.intro notes differs)
  walSync := by
    rintro _ _ ⟨notes, differs⟩
    rename_i disk engine faults
    cases faults with
    | nil => exact .ok _ (.intro notes differs)
    | cons verdict rest =>
        cases verdict with
        | done => exact .ok _ (.intro notes differs)
        | fail progress => exact .error _ (.intro notes differs)
  walTruncate := by
    rintro _ _ ⟨notes, differs⟩
    rename_i disk engine faults
    cases faults with
    | nil => exact .ok _ (.intro notes differs)
    | cons verdict rest =>
        cases verdict with
        | done => exact .ok _ (.intro notes differs)
        | fail progress => cases progress <;> exact .error _ (.intro notes differs)
  nextTableId := nextTableId
  addTable := addTable
  removeTables := removeTables
  createTable id entries := by
    rintro _ _ ⟨notes, differs⟩
    rename_i disk engine faults
    unfold createTable
    dsimp only [Engine.annotated]
    cases fmt.create engine.options entries with
    | error failure => exact .error _ (.intro notes differs)
    | ok made =>
        cases faults with
        | nil => exact .ok _ (.intro notes differs)
        | cons verdict rest =>
            cases verdict with
            | done => exact .ok _ (.intro notes differs)
            | fail progress =>
                rcases progress with _ | _ | progress <;>
                  exact .error _ (.intro notes differs)
  removeFile id := by
    rintro _ _ ⟨notes, differs⟩
    rename_i disk engine faults
    cases faults with
    | nil => exact .ok _ (.intro notes differs)
    | cons verdict rest => cases verdict <;> exact .ok _ (.intro notes differs)
  freeze := by
    rintro _ _ ⟨notes, differs⟩
    exact .ok _ (.intro notes differs)
  pushFront table := by
    rintro _ _ ⟨notes, differs⟩
    rename_i disk engine faults
    unfold pushFront
    dsimp only [Engine.annotated]
    cases engine.version.pushFront table with
    | error failure => exact .error _ (.intro notes differs)
    | ok version => exact .ok _ (.intro notes differs)
  clearImmutable := by
    rintro _ _ ⟨notes, differs⟩
    exact .ok _ (.intro notes differs)
  applyOperation operation := by
    rintro _ _ ⟨notes, differs⟩
    exact .ok _ (.intro notes differs)
  installCompaction job output := by
    rintro _ _ ⟨notes, differs⟩
    rename_i disk engine faults
    unfold installCompaction
    dsimp only [Engine.annotated]
    cases applyCompaction engine.version job output with
    | error failure => exact .error _ (.intro notes differs)
    | ok version => exact .ok _ (.intro notes differs)

/-- A merge reads its inputs past the cache. -/
theorem writeOutput (snapshot : Version fmt) (job : CompactionJob fmt) (outputId : UInt64) :
    InStep (Apart related) (writeOutput snapshot job outputId)
      (writeOutput snapshot job outputId) := by
  intro db twin apart
  have files : twin.disk = db.disk := by
    cases apart
    rfl
  unfold LsmStore.writeOutput
  rw [files, twins.options_eq apart]
  cases inputIterators db.disk.sst job.inputs with
  | error cause => exact .error _ apart
  | ok iterators =>
      dsimp only
      cases mergeTables iterators (dropTombstones snapshot db.engine.options job) with
      | error cause => exact .error _ apart
      | ok merged => exact twins.createTable outputId merged db twin apart

theorem compactOnce : InStep (Apart related) (compactOnce : Action fmt Unit) compactOnce :=
  fun _ _ apart => twins.compactOnce apart
    fun job _ outputId mid mid' _ _ => writeOutput _ job outputId mid mid'

/-- A request is in step if it keeps what is known of the notes. -/
theorem maybeRequestCompaction
    (keeps : ∀ notes notes', related notes notes' → related notes.requested notes'.requested) :
    InStep (Apart related) (maybeRequestCompaction : Action fmt Unit) maybeRequestCompaction := by
  rintro _ _ ⟨notes, differs⟩
  rename_i disk engine faults
  rw [maybeRequestCompaction_eq, maybeRequestCompaction_eq]
  refine .ok () ?_
  change Apart related _ (if (engine.version.level 0).length ≥
    engine.options.l0CompactionTrigger then _ else _)
  split
  · exact @intro fmt related disk (engine.annotated engine.notes.requested) faults
      notes.requested (keeps _ _ differs)
  · exact .intro notes differs

end Apart

end LsmStore
