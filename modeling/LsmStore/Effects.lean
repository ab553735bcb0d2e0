import LsmStore.Actions
import LsmStore.Foundation.Outcomes

/-!
# Effects of actions, however they end

Some facts about the state hold whatever an action does and wherever it fails: a plan of
verdicts is only used up, the number of levels stays.  Such a fact is a relation between
states that the elementary actions respect (`Effects`); it then holds of every operation
of the engine that works on one engine from its start to its end.
-/

set_option autoImplicit false

namespace LsmStore

open Foundation

variable {fmt : TableFormat}

/-! ## File operations -/

/-- Only files were touched, and verdicts were taken from the front of the plan. -/
def Db.Touched (db after : Db fmt) : Prop :=
  after.engine = db.engine ∧ after.faults <:+ db.faults

theorem Db.touched_refl (db : Db fmt) : db.Touched db := ⟨rfl, List.suffix_refl _⟩

theorem Db.touched_next (disk disk' : Disk fmt) (engine : Engine fmt) (verdict : Verdict)
    (rest : List Verdict) :
    Db.Touched ⟨disk, engine, verdict :: rest⟩ ⟨disk', engine, rest⟩ :=
  ⟨rfl, List.suffix_cons _ _⟩

theorem touches_walAppend (operation : Operation) :
    Moves Db.Touched (walAppend operation : Action fmt Unit) := by
  rintro ⟨disk, engine, faults⟩
  unfold Yields walAppend
  cases (Wal.mk disk.wal).append operation with
  | error cause => exact Db.touched_refl _
  | ok appended =>
      cases faults with
      | nil => exact ⟨rfl, List.suffix_refl _⟩
      | cons verdict rest => cases verdict <;> exact Db.touched_next _ _ _ _ _

theorem touches_walSync : Moves Db.Touched (walSync : Action fmt Unit) := by
  rintro ⟨disk, engine, faults⟩
  cases faults with
  | nil => exact Db.touched_refl _
  | cons verdict rest => cases verdict <;> exact Db.touched_next _ _ _ _ _

theorem touches_walTruncate : Moves Db.Touched (walTruncate : Action fmt Unit) := by
  rintro ⟨disk, engine, faults⟩
  cases faults with
  | nil => exact ⟨rfl, List.suffix_refl _⟩
  | cons verdict rest =>
      cases verdict with
      | done => exact Db.touched_next _ _ _ _ _
      | fail progress => cases progress <;> exact Db.touched_next _ _ _ _ _

theorem touches_manifestAppend (record : ManifestRecord) :
    Moves Db.Touched (manifestAppend record : Action fmt Unit) := by
  rintro ⟨disk, engine, faults⟩
  cases faults with
  | nil => exact ⟨rfl, List.suffix_refl _⟩
  | cons verdict rest => cases verdict <;> exact Db.touched_next _ _ _ _ _

theorem touches_createTable (id : UInt64) (entries : List (Key × Entry)) :
    Moves Db.Touched (createTable id entries : Action fmt (SsTable fmt)) := by
  rintro ⟨disk, engine, faults⟩
  unfold Yields createTable
  cases fmt.create engine.options entries with
  | error failure => exact Db.touched_refl _
  | ok made =>
      cases faults with
      | nil => exact ⟨rfl, List.suffix_refl _⟩
      | cons verdict rest =>
          cases verdict with
          | done => exact Db.touched_next _ _ _ _ _
          | fail progress =>
              match progress with
              | 0 | 1 | _ + 2 => exact Db.touched_next _ _ _ _ _

theorem touches_removeFile (id : UInt64) : Moves Db.Touched (removeFile id : Action fmt Unit) := by
  rintro ⟨disk, engine, faults⟩
  cases faults with
  | nil => exact ⟨rfl, List.suffix_refl _⟩
  | cons verdict rest => cases verdict <;> exact Db.touched_next _ _ _ _ _

/-! ## Reading -/

/-- A relation between states that the engine's notes respect: what it caches, counts,
requests and reports. -/
structure Noting (related : Db fmt → Db fmt → Prop) : Prop where
  refl : ∀ db, related db db
  trans : ∀ first second third, related first second → related second third →
    related first third
  notes : ∀ (db : Db fmt) cache lastError bloomSkips sstableReads inbox running,
    related db
      { db with
        engine :=
          { db.engine with
            cache := cache
            lastError := lastError
            bloomSkips := bloomSkips
            sstableReads := sstableReads
            inbox := inbox
            running := running } }

namespace Noting

variable {related : Db fmt → Db fmt → Prop} (noting : Noting related)

include noting

/-- The action from a state that has been reached. -/
theorem onward {α : Type} {action : Action fmt α} (moves : Moves related action) {db mid : Db fmt}
    (reached : related db mid) :
    Yields action mid (fun _ next => related db next) (fun _ next => related db next) :=
  (moves mid).imp (fun _ _ further => noting.trans _ _ _ reached further)
    (fun _ _ further => noting.trans _ _ _ reached further)

theorem searchTables (key : Key) (tables : List (SsTable fmt)) :
    Moves related (searchTables key tables) := by
  induction tables with
  | nil => exact noting.refl
  | cons table rest ih =>
      intro db
      unfold Yields
      rw [LsmStore.searchTables]
      by_cases outside : (!fmt.containsRange table.handle key) = true
      · rw [if_pos outside]
        exact ih db
      · rw [if_neg outside]
        by_cases skipped : (!fmt.mightContain table.handle key) = true
        · rw [if_pos skipped]
          exact noting.onward ih (noting.notes db _ _ _ _ _ _)
        · rw [if_neg skipped]
          have noted := noting.notes db
            (fmt.get table.id table.handle (db.disk.sst table.id) key db.engine.cache).2
            db.engine.lastError db.engine.bloomSkips (db.engine.sstableReads + 1)
            db.engine.inbox db.engine.running
          dsimp only
          cases (fmt.get table.id table.handle (db.disk.sst table.id) key db.engine.cache).1 with
          | error cause => exact noted
          | ok found =>
              cases found with
              | none => exact noting.onward ih noted
              | some entry => cases entry <;> exact noted

theorem get (key : Key) : Moves related (get key) := by
  intro db
  unfold Yields LsmStore.get
  cases validateKey key with
  | error cause => exact noting.refl db
  | ok _ =>
      cases db.engine.memtable.get key with
      | some entry => cases entry <;> exact noting.refl db
      | none =>
          cases db.engine.immutable.bind (·.get key) with
          | some entry => cases entry <;> exact noting.refl db
          | none => exact noting.searchTables key _ db

end Noting

/-- Nothing but the engine's notes has changed. -/
structure Db.Noted (db after : Db fmt) : Prop where
  disk : after.disk = db.disk
  options : after.engine.options = db.engine.options
  memtable : after.engine.memtable = db.engine.memtable
  immutable : after.engine.immutable = db.engine.immutable
  version : after.engine.version = db.engine.version
  manifest : after.engine.manifest = db.engine.manifest
  faults : after.faults = db.faults

theorem noting_noted : Noting (@Db.Noted fmt) where
  refl _ := ⟨rfl, rfl, rfl, rfl, rfl, rfl, rfl⟩
  trans _ _ _ first second :=
    ⟨second.disk.trans first.disk, second.options.trans first.options,
      second.memtable.trans first.memtable, second.immutable.trans first.immutable,
      second.version.trans first.version, second.manifest.trans first.manifest,
      second.faults.trans first.faults⟩
  notes _ _ _ _ _ _ _ := ⟨rfl, rfl, rfl, rfl, rfl, rfl, rfl⟩

/-- **A read changes nothing but the engine's notes.** -/
theorem noted_get (key : Key) : Moves Db.Noted (get key : Action fmt (Option Bytes)) :=
  noting_noted.get key

/-! ## Relations that actions respect -/

/-- A relation between states that every elementary action respects, also when it fails. -/
structure Effects (related : Db fmt → Db fmt → Prop) : Prop where
  refl : ∀ db, related db db
  trans : ∀ first second third, related first second → related second third →
    related first third
  files : ∀ db after, db.Touched after → related db after
  modifyManifest : ∀ change, Moves related (modifyManifest change)
  freeze : Moves related freeze
  pushFront : ∀ table, Moves related (pushFront table)
  clearImmutable : Moves related clearImmutable
  applyOperation : ∀ operation, Moves related (applyOperation operation)
  installCompaction : ∀ job output, Moves related (installCompaction job output)
  /-- The engine's notes: what is cached, counted, requested and reported. -/
  notes : ∀ (db : Db fmt) cache lastError bloomSkips sstableReads inbox running,
    related db
      { db with
        engine :=
          { db.engine with
            cache := cache
            lastError := lastError
            bloomSkips := bloomSkips
            sstableReads := sstableReads
            inbox := inbox
            running := running } }

namespace Effects

variable {related : Db fmt → Db fmt → Prop} (effects : Effects related)

include effects

theorem noting : Noting related := ⟨effects.refl, effects.trans, effects.notes⟩

theorem bind {α β : Type} {first : Action fmt α} {next : α → Action fmt β}
    (moves : Moves related first) (then_ : ∀ value, Moves related (next value)) :
    Moves related (first >>= next) :=
  Moves.bind effects.trans moves then_

theorem pure {α : Type} (value : α) : Moves related (Pure.pure value : Action fmt α) :=
  Moves.pure effects.refl value

theorem throw {α : Type} (failure : Failure) :
    Moves related (MonadExcept.throw failure : Action fmt α) :=
  Moves.throw effects.refl failure

theorem current : Moves related (current : Action fmt (Db fmt)) := effects.refl

theorem manifestAppend (record : ManifestRecord) : Moves related (manifestAppend record) :=
  (touches_manifestAppend record).imp effects.files

/-! ## Flushing and writing -/

theorem nextTableId : Moves related nextTableId := by
  refine effects.bind effects.current fun db => ?_
  dsimp only
  split
  · exact effects.bind (effects.throw _) fun _ => effects.bind (effects.modifyManifest _) fun _ =>
      effects.bind (effects.manifestAppend _) fun _ => effects.pure _
  · exact effects.bind (effects.modifyManifest _) fun _ =>
      effects.bind (effects.manifestAppend _) fun _ => effects.pure _

theorem addTable (id : UInt64) (level : UInt32) : Moves related (addTable id level) := by
  refine effects.bind effects.current fun db => ?_
  split
  · exact effects.bind (effects.throw _) fun _ => effects.bind (effects.manifestAppend _) fun _ =>
      effects.modifyManifest _
  · exact effects.bind (effects.manifestAppend _) fun _ => effects.modifyManifest _

theorem flushMemtable : Moves related flushMemtable := by
  refine effects.bind effects.current fun db => ?_
  split
  · exact touches_walSync.imp effects.files
  · exact effects.bind effects.freeze fun snapshot => effects.bind effects.nextTableId fun id =>
      effects.bind ((touches_createTable id snapshot).imp effects.files) fun table =>
        effects.bind (effects.addTable id 0) fun _ =>
          effects.bind (effects.pushFront table) fun _ =>
            effects.bind (touches_walTruncate.imp effects.files) fun _ => effects.clearImmutable

theorem maybeRequestCompaction : Moves related maybeRequestCompaction := by
  intro db
  unfold Yields LsmStore.maybeRequestCompaction
  split <;> rename_i ran <;> split at ran <;> cases ran
  · exact effects.notes db _ _ _ _ _ _
  · exact effects.refl db

theorem flush : Moves related flush :=
  effects.bind effects.flushMemtable fun _ => effects.maybeRequestCompaction

theorem write (operation : Operation) : Moves related (write operation) := by
  refine effects.bind ((touches_walAppend operation).imp effects.files) fun _ =>
    effects.bind (touches_walSync.imp effects.files) fun _ =>
      effects.bind (effects.applyOperation operation) fun _ =>
        effects.bind effects.current fun db => ?_
  split
  · exact effects.flush
  · exact effects.pure ()

theorem put (key value : Bytes) : Moves related (put key value) := by
  intro db
  unfold Yields LsmStore.put
  cases validateKey key with
  | error cause => exact effects.refl db
  | ok _ =>
      cases validateValue value with
      | error cause => exact effects.refl db
      | ok _ => exact effects.write _ db

theorem delete (key : Bytes) : Moves related (delete key) := by
  intro db
  unfold Yields LsmStore.delete
  cases validateKey key with
  | error cause => exact effects.refl db
  | ok _ => exact effects.write _ db

/-! ## Compaction -/

theorem removeTables (ids : List UInt64) : Moves related (removeTables ids) := by
  induction ids with
  | nil => exact effects.pure ()
  | cons id rest ih =>
      exact effects.bind (effects.manifestAppend _) fun _ =>
        effects.bind (effects.modifyManifest _) fun _ => ih

theorem writeOutput (snapshot : Version fmt) (job : CompactionJob fmt) (outputId : UInt64) :
    Moves related (writeOutput snapshot job outputId) := by
  intro db
  unfold Yields LsmStore.writeOutput
  cases inputIterators db.disk.sst job.inputs with
  | error cause => exact effects.refl db
  | ok iterators =>
      dsimp only
      cases mergeTables iterators (dropTombstones snapshot db.engine.options job) with
      | error cause => exact effects.refl db
      | ok merged => exact (touches_createTable outputId merged).imp effects.files db

theorem recordCompaction (outputId : UInt64) (job : CompactionJob fmt) :
    Moves related (recordCompaction outputId job) :=
  effects.bind (effects.addTable _ _) fun _ => effects.removeTables _

theorem removeInputs (snapshot : Version fmt) (inputs : List (SsTable fmt)) :
    Moves related (removeInputs snapshot inputs) := by
  induction inputs with
  | nil => exact effects.pure ()
  | cons input rest ih =>
      refine effects.bind effects.current fun db => ?_
      split
      · exact effects.bind ((touches_removeFile _).imp effects.files) fun _ => ih
      · exact ih

theorem compactOnce : Moves related compactOnce := by
  refine effects.bind effects.current fun db => ?_
  dsimp only
  split
  · exact effects.throw _
  · exact effects.pure ()
  · exact effects.bind effects.nextTableId fun outputId =>
      effects.bind (effects.writeOutput _ _ outputId) fun output =>
        effects.bind (effects.recordCompaction _ _) fun _ =>
          effects.bind (effects.installCompaction _ output) fun _ => effects.removeInputs _ _

theorem workerPass : Moves related workerPass := by
  intro db
  unfold Yields LsmStore.workerPass
  by_cases idle : db.engine.inbox = 0 ∨ db.engine.running = false
  · rw [if_pos idle]
    exact effects.refl db
  · rw [if_neg idle]
    have moves := effects.noting.onward effects.compactOnce
      (effects.notes db db.engine.cache db.engine.lastError db.engine.bloomSkips
        db.engine.sstableReads (db.engine.inbox - 1) db.engine.running)
    dsimp only
    cases ran : LsmStore.compactOnce
        { db with engine := { db.engine with inbox := db.engine.inbox - 1 } } with
    | ok value after => exact moves.ok ran
    | error failure after =>
        have reached := moves.error ran
        cases failure with
        | error cause => exact effects.trans _ _ _ reached (effects.notes after _ _ _ _ _ _)
        | panic => exact effects.trans _ _ _ reached (effects.notes after _ _ _ _ _ _)

theorem drain (requests : Nat) : Moves related (drain requests) := by
  induction requests with
  | zero => exact effects.pure ()
  | succ requests ih => exact effects.bind effects.workerPass fun _ => ih

theorem shutdown : Moves related shutdown :=
  effects.bind effects.current fun _ => effects.drain _

/-- **Every command but the reopening** has the effects of its elementary actions. -/
theorem command {command : Command} (open_ : command ≠ .reopen) :
    Moves related (command.action : Action fmt Unit) := by
  cases command with
  | put key value => exact effects.put key value
  | delete key => exact effects.delete key
  | get key =>
      intro db
      change Yields (EStateM.map (Function.const _ ()) (LsmStore.get key)) db _ _
      unfold Yields EStateM.map
      have moves := effects.noting.get key db
      cases ran : LsmStore.get key db with
      | ok value after => exact moves.ok ran
      | error failure after => exact moves.error ran
  | flush => exact effects.flush
  | compact => exact effects.compactOnce
  | workerPass => exact effects.workerPass
  | reopen => exact absurd rfl open_

end Effects

end LsmStore
