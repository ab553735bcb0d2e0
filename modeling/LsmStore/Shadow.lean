import LsmStore.Crashes
import LsmStore.Foundation.Lockstep
import LsmStore.Runs

/-!
# Databases that behave alike

An engine reads its log only when it is opened, and of its manifest it reads the next id
and the ids that are listed, not their levels.  So two databases that differ in the log,
in the manifest file and in the levels that the manifest lists go on in step
(`Shadows.command`): every command but the reopening returns the same from both, and leaves
databases that differ in no more than that.

The first of the two is the database at hand.  The second, its shadow, is chosen such that
it is consistent when the first is not.
-/

set_option autoImplicit false

namespace LsmStore

open Foundation

variable {fmt : TableFormat}

/-- The manifest file holds complete records, which replay to the manifest in memory. -/
def Recorded (bytes : Bytes) (manifest : Manifest) : Prop :=
  ∃ records, bytes = manifestLog records ∧ Manifest.replayAll records .initial = .ok manifest

theorem Recorded.append {bytes : Bytes} {manifest manifest' : Manifest}
    (recorded : Recorded bytes manifest) {more : List ManifestRecord}
    (replayed : Manifest.replayAll more manifest = .ok manifest') :
    Recorded (bytes ++ manifestLog more) manifest' := by
  obtain ⟨records, rfl, earlier⟩ := recorded
  refine ⟨records ++ more, (manifestLog_append records more).symm, ?_⟩
  rw [Manifest.replayAll_append, earlier]
  exact replayed

theorem Recorded.recover_eq {bytes : Bytes} {manifest : Manifest}
    (recorded : Recorded bytes manifest) : Manifest.recover bytes = .ok manifest := by
  obtain ⟨records, rfl, replayed⟩ := recorded
  rw [← List.append_nil (manifestLog records), Manifest.recover_log records (by decide)]
  exact replayed

/-- The same table, listed in levels that correspond. -/
def SameTable (levels : UInt32 → UInt32 → Prop) (own other : UInt64 × UInt32) : Prop :=
  other.1 = own.1 ∧ levels own.2 other.2

/-- The second database is as the first, but for the log, unless it is asked to be the same,
and for the manifest, whose file may be any and whose levels correspond.  No file operation
is going to fail. -/
inductive Shadows (levels : UInt32 → UInt32 → Prop) (sameLog : Prop) : Db fmt → Db fmt → Prop
  | intro {disk : Disk fmt} {engine : Engine fmt} (wal bytes : Bytes) (manifest : Manifest)
      (log : sameLog → wal = disk.wal)
      (next : manifest.nextTableId = engine.manifest.nextTableId)
      (tables : List.Forall₂ (SameTable levels) engine.manifest.tables manifest.tables)
      (recorded : Recorded disk.manifest engine.manifest) :
      Shadows levels sameLog ⟨disk, engine, []⟩
        ⟨{ disk with wal := wal, manifest := bytes }, { engine with manifest := manifest }, []⟩

section Tables

variable {levels : UInt32 → UInt32 → Prop} {manifest manifest' : Manifest}

theorem ids_eq_of_sameTables {tables tables' : List (UInt64 × UInt32)}
    (same : List.Forall₂ (SameTable levels) tables tables') :
    tables'.map (·.1) = tables.map (·.1) := by
  induction same with
  | nil => rfl
  | cons here _ ih => rw [List.map_cons, List.map_cons, here.1, ih]

theorem lists_eq_of_sameTables
    (same : List.Forall₂ (SameTable levels) manifest.tables manifest'.tables) (id : UInt64) :
    manifest'.lists id = manifest.lists id := by
  rw [Bool.eq_iff_iff, Manifest.lists_iff, Manifest.lists_iff, ids_eq_of_sameTables same]

theorem sameTables_removed
    (same : List.Forall₂ (SameTable levels) manifest.tables manifest'.tables)
    (gone : List UInt64) :
    List.Forall₂ (SameTable levels) (manifest.removed gone).tables
      (manifest'.removed gone).tables := by
  refine List.rel_filter ?_ same
  rintro own other ⟨sameId, _⟩
  simp only [sameId]

end Tables

namespace Shadows

variable {levels : UInt32 → UInt32 → Prop} {sameLog : Prop} {db shadow : Db fmt}

theorem disk_eq (shadows : Shadows levels sameLog db shadow) : shadow.disk.sst = db.disk.sst := by
  cases shadows
  rfl

theorem engine_eq (shadows : Shadows levels sameLog db shadow) :
    shadow.engine = { db.engine with manifest := shadow.engine.manifest } := by
  cases shadows
  rfl

/-! ## Elementary actions -/

theorem current {α : Type} {next next' : Db fmt → Action fmt α}
    (then_ : ∀ db shadow, Shadows levels sameLog db shadow →
      InStep (Shadows levels sameLog) (next db) (next' shadow)) :
    InStep (Shadows levels sameLog) (LsmStore.current >>= next) (LsmStore.current >>= next') :=
  fun db shadow shadows => then_ db shadow shadows db shadow shadows

theorem walAppend (operation : Operation) :
    InStep (Shadows levels sameLog) (walAppend operation : Action fmt Unit)
      (walAppend operation) := by
  rintro _ _ ⟨wal, bytes, manifest, log, next, tables, recorded⟩
  unfold LsmStore.walAppend Wal.append
  cases encode operation with
  | error cause => exact .error _ (.intro wal bytes manifest log next tables recorded)
  | ok encoded =>
      exact .ok _ (.intro (wal ++ encoded) bytes manifest (fun same => by rw [log same]) next
        tables recorded)

theorem walSync : InStep (Shadows levels sameLog) (walSync : Action fmt Unit) walSync := by
  rintro _ _ ⟨wal, bytes, manifest, log, next, tables, recorded⟩
  exact .ok _ (.intro wal bytes manifest log next tables recorded)

theorem walTruncate :
    InStep (Shadows levels sameLog) (walTruncate : Action fmt Unit) walTruncate := by
  rintro _ _ ⟨wal, bytes, manifest, log, next, tables, recorded⟩
  exact .ok _ (.intro [] bytes manifest (fun _ => rfl) next tables recorded)

theorem nextTableId :
    InStep (Shadows levels sameLog) (nextTableId : Action fmt UInt64) nextTableId := by
  rintro _ _ ⟨wal, bytes, manifest, log, next, tables, recorded⟩
  rename_i disk engine
  by_cases room : engine.manifest.nextTableId.toNat + 1 ≤ u64Max
  · rw [nextTableId_noFaults room,
      nextTableId_noFaults (show manifest.nextTableId.toNat + 1 ≤ u64Max by rw [next]; exact room)]
    dsimp only
    rw [next]
    refine .ok _ (.intro wal _ _ log (congrArg (· + 1) next) tables ?_)
    have record : (ManifestRecord.setNextTableId (engine.manifest.nextTableId + 1)).encode =
        manifestLog [.setNextTableId (engine.manifest.nextTableId + 1)] := by simp [manifestLog]
    dsimp only
    rw [record]
    exact recorded.append rfl
  · have full : ¬ Roomy (⟨disk, engine, []⟩ : Db fmt) := room
    have full' : ¬ Roomy (⟨{ disk with wal := wal, manifest := bytes },
        { engine with manifest := manifest }, []⟩ : Db fmt) := by
      unfold Roomy
      rw [next]
      exact room
    rw [nextTableId_panic full, nextTableId_panic full']
    exact .error _ (.intro wal bytes manifest log next tables recorded)

theorem addTable_listed {id : UInt64} {level : UInt32} {disk : Disk fmt} {engine : Engine fmt}
    (listed : engine.manifest.lists id = true) :
    LsmStore.addTable id level ⟨disk, engine, []⟩ =
      .error (.error .invalidManifest) ⟨disk, engine, []⟩ := by
  unfold LsmStore.addTable
  refine (bind_of_ok (show LsmStore.current _ = .ok _ _ from rfl)).trans ?_
  dsimp only
  rw [if_pos listed]
  rfl

theorem addTable (reflexive : ∀ level, levels level level) (id : UInt64) (level : UInt32) :
    InStep (Shadows levels sameLog) (addTable id level : Action fmt Unit) (addTable id level) := by
  rintro _ _ ⟨wal, bytes, manifest, log, next, tables, recorded⟩
  rename_i disk engine
  have same := lists_eq_of_sameTables tables id
  cases listed : engine.manifest.lists id with
  | true =>
      rw [listed] at same
      rw [addTable_listed listed, addTable_listed same]
      exact .error _ (.intro wal bytes manifest log next tables recorded)
  | false =>
      rw [addTable_noFaults listed, addTable_noFaults (same.trans listed)]
      refine .ok _ (.intro wal _ _ log next ?_ ?_)
      · exact List.rel_append tables (.cons ⟨rfl, reflexive level⟩ .nil)
      · have replayed : Manifest.replayAll [.addTable id level] engine.manifest =
            .ok (engine.manifest.added id level) :=
          Manifest.replayAll_add listed level []
        have record : (ManifestRecord.addTable id level).encode =
            manifestLog [.addTable id level] := by simp [manifestLog]
        dsimp only
        rw [record]
        exact recorded.append replayed

theorem removeTables (ids : List UInt64) :
    InStep (Shadows levels sameLog) (removeTables ids : Action fmt Unit) (removeTables ids) := by
  rintro _ _ ⟨wal, bytes, manifest, log, next, tables, recorded⟩
  rename_i disk engine
  rw [removeTables_noFaults, removeTables_noFaults]
  refine .ok _ (.intro wal _ _ log next (sameTables_removed tables ids) ?_)
  exact recorded.append (Manifest.replayAll_removes ids engine.manifest)

theorem createTable (id : UInt64) (entries : List (Key × Entry)) :
    InStep (Shadows levels sameLog) (createTable id entries : Action fmt (SsTable fmt))
      (createTable id entries) := by
  rintro _ _ ⟨wal, bytes, manifest, log, next, tables, recorded⟩
  rename_i disk engine
  unfold LsmStore.createTable
  dsimp only
  cases fmt.create engine.options entries with
  | error failure => exact .error _ (.intro wal bytes manifest log next tables recorded)
  | ok made =>
      exact .ok _ (.intro wal bytes manifest log next tables recorded)

theorem removeFile (id : UInt64) :
    InStep (Shadows levels sameLog) (removeFile id : Action fmt Unit) (removeFile id) := by
  rintro _ _ ⟨wal, bytes, manifest, log, next, tables, recorded⟩
  exact .ok _ (.intro wal bytes manifest log next tables recorded)

/-! ## Reading -/

theorem searchTables (key : Key) (searched : List (SsTable fmt)) :
    InStep (Shadows levels sameLog) (searchTables key searched) (searchTables key searched) := by
  induction searched with
  | nil => exact fun _ _ shadows => .ok none shadows
  | cons table rest ih =>
      rintro _ _ ⟨wal, bytes, manifest, log, next, tables, recorded⟩
      rename_i disk engine
      rw [LsmStore.searchTables, LsmStore.searchTables]
      by_cases outside : (!fmt.containsRange table.handle key) = true
      · rw [if_pos outside, if_pos outside]
        exact ih _ _ (.intro wal bytes manifest log next tables recorded)
      · rw [if_neg outside, if_neg outside]
        by_cases skipped : (!fmt.mightContain table.handle key) = true
        · rw [if_pos skipped, if_pos skipped]
          exact ih _ _ (.intro wal bytes manifest log next tables recorded)
        · rw [if_neg skipped, if_neg skipped]
          dsimp only
          cases (fmt.get table.id table.handle (disk.sst table.id) key engine.cache).1 with
          | error cause => exact .error _ (.intro wal bytes manifest log next tables recorded)
          | ok found =>
              cases found with
              | none => exact ih _ _ (.intro wal bytes manifest log next tables recorded)
              | some entry =>
                  cases entry <;>
                    exact .ok _ (.intro wal bytes manifest log next tables recorded)

theorem get (key : Key) :
    InStep (Shadows levels sameLog) (get key : Action fmt (Option Bytes)) (get key) := by
  rintro _ _ ⟨wal, bytes, manifest, log, next, tables, recorded⟩
  rename_i disk engine
  have still : Shadows levels sameLog (⟨disk, engine, []⟩ : Db fmt)
      ⟨{ disk with wal := wal, manifest := bytes }, { engine with manifest := manifest }, []⟩ :=
    .intro wal bytes manifest log next tables recorded
  unfold LsmStore.get
  cases validateKey key with
  | error cause => exact .error _ still
  | ok _ =>
      dsimp only
      cases engine.memtable.get key with
      | some entry => cases entry <;> exact .ok _ still
      | none =>
          dsimp only
          cases engine.immutable.bind (·.get key) with
          | some entry => cases entry <;> exact .ok _ still
          | none => exact searchTables key _ _ _ still

/-! ## Flushing and writing -/

theorem freeze :
    InStep (Shadows levels sameLog) (freeze : Action fmt (List (Key × Entry))) freeze := by
  rintro _ _ ⟨wal, bytes, manifest, log, next, tables, recorded⟩
  exact .ok _ (.intro wal bytes manifest log next tables recorded)

theorem pushFront (table : SsTable fmt) :
    InStep (Shadows levels sameLog) (pushFront table) (pushFront table) := by
  rintro _ _ ⟨wal, bytes, manifest, log, next, tables, recorded⟩
  rename_i disk engine
  unfold LsmStore.pushFront
  dsimp only
  cases engine.version.pushFront table with
  | error failure => exact .error _ (.intro wal bytes manifest log next tables recorded)
  | ok version => exact .ok _ (.intro wal bytes manifest log next tables recorded)

theorem clearImmutable :
    InStep (Shadows levels sameLog) (clearImmutable : Action fmt Unit) clearImmutable := by
  rintro _ _ ⟨wal, bytes, manifest, log, next, tables, recorded⟩
  exact .ok _ (.intro wal bytes manifest log next tables recorded)

theorem maybeRequestCompaction :
    InStep (Shadows levels sameLog) (maybeRequestCompaction : Action fmt Unit)
      maybeRequestCompaction := by
  rintro _ _ ⟨wal, bytes, manifest, log, next, tables, recorded⟩
  rename_i disk engine
  unfold LsmStore.maybeRequestCompaction
  dsimp only
  split <;> exact .ok _ (.intro wal bytes manifest log next tables recorded)

theorem applyOperation (operation : Operation) :
    InStep (Shadows levels sameLog) (applyOperation operation : Action fmt Unit)
      (applyOperation operation) := by
  rintro _ _ ⟨wal, bytes, manifest, log, next, tables, recorded⟩
  exact .ok _ (.intro wal bytes manifest log next tables recorded)

theorem flushMemtable (reflexive : ∀ level, levels level level) :
    InStep (Shadows levels sameLog) (flushMemtable : Action fmt Unit) flushMemtable := by
  refine current ?_
  rintro _ _ ⟨wal, bytes, manifest, log, next, tables, recorded⟩
  dsimp only
  split
  · exact walSync
  · refine freeze.bind fun snapshot => nextTableId.bind fun id => ?_
    refine (createTable id snapshot).bind fun table => (addTable reflexive id 0).bind fun _ => ?_
    exact (pushFront table).bind fun _ => walTruncate.bind fun _ => clearImmutable

theorem flush (reflexive : ∀ level, levels level level) :
    InStep (Shadows levels sameLog) (flush : Action fmt Unit) flush :=
  (flushMemtable reflexive).bind fun _ => maybeRequestCompaction

theorem write (reflexive : ∀ level, levels level level) (operation : Operation) :
    InStep (Shadows levels sameLog) (write operation : Action fmt Unit) (write operation) := by
  refine (walAppend operation).bind fun _ => walSync.bind fun _ => ?_
  refine (applyOperation operation).bind fun _ => current ?_
  rintro _ _ ⟨wal, bytes, manifest, log, next, tables, recorded⟩
  dsimp only
  split
  · exact flush reflexive
  · exact .pure ()

theorem put (reflexive : ∀ level, levels level level) (key value : Bytes) :
    InStep (Shadows levels sameLog) (put key value : Action fmt Unit) (put key value) := by
  unfold LsmStore.put
  intro db shadow shadows
  dsimp only
  cases validateKey key with
  | error cause => exact .error _ shadows
  | ok _ =>
      dsimp only
      cases validateValue value with
      | error cause => exact .error _ shadows
      | ok _ => exact write reflexive _ db shadow shadows

theorem delete (reflexive : ∀ level, levels level level) (key : Bytes) :
    InStep (Shadows levels sameLog) (delete key : Action fmt Unit) (delete key) := by
  unfold LsmStore.delete
  intro db shadow shadows
  dsimp only
  cases validateKey key with
  | error cause => exact .error _ shadows
  | ok _ => exact write reflexive _ db shadow shadows

/-! ## Compaction -/

theorem writeOutput (snapshot : Version fmt) (job : CompactionJob fmt) (outputId : UInt64) :
    InStep (Shadows levels sameLog) (writeOutput snapshot job outputId)
      (writeOutput snapshot job outputId) := by
  intro db shadow shadows
  have files := shadows.disk_eq
  have options : shadow.engine.options = db.engine.options := by rw [shadows.engine_eq]
  unfold LsmStore.writeOutput
  rw [files, options]
  cases inputIterators db.disk.sst job.inputs with
  | error cause => exact .error _ shadows
  | ok iterators =>
      dsimp only
      cases mergeTables iterators (dropTombstones snapshot db.engine.options job) with
      | error cause => exact .error _ shadows
      | ok merged => exact createTable outputId merged db shadow shadows

theorem recordCompaction (reflexive : ∀ level, levels level level) (outputId : UInt64)
    (job : CompactionJob fmt) :
    InStep (Shadows levels sameLog) (recordCompaction outputId job)
      (recordCompaction outputId job) :=
  (addTable reflexive outputId _).bind fun _ => removeTables _

theorem installCompaction (job : CompactionJob fmt) (output : SsTable fmt) :
    InStep (Shadows levels sameLog) (installCompaction job output)
      (installCompaction job output) := by
  rintro _ _ ⟨wal, bytes, manifest, log, next, tables, recorded⟩
  rename_i disk engine
  unfold LsmStore.installCompaction
  dsimp only
  cases applyCompaction engine.version job output with
  | error failure => exact .error _ (.intro wal bytes manifest log next tables recorded)
  | ok version => exact .ok _ (.intro wal bytes manifest log next tables recorded)

theorem removeInputs (snapshot : Version fmt) (inputs : List (SsTable fmt)) :
    InStep (Shadows levels sameLog) (removeInputs snapshot inputs)
      (removeInputs snapshot inputs) := by
  induction inputs with
  | nil => exact .pure ()
  | cons table rest ih =>
      refine current ?_
      rintro _ _ ⟨wal, bytes, manifest, log, next, tables, recorded⟩
      dsimp only
      split
      · exact (removeFile table.id).bind fun _ => ih
      · exact (InStep.pure ()).bind fun _ => ih

theorem compactOnce (reflexive : ∀ level, levels level level) :
    InStep (Shadows levels sameLog) (compactOnce : Action fmt Unit) compactOnce := by
  refine current ?_
  rintro _ _ ⟨wal, bytes, manifest, log, next, tables, recorded⟩
  rename_i disk engine
  dsimp only
  cases pickCompaction engine.version engine.options with
  | error failure => exact .throw failure
  | ok picked =>
      cases picked with
      | none => exact .pure ()
      | some job =>
          refine nextTableId.bind fun outputId => ?_
          refine (writeOutput _ job outputId).bind fun output => ?_
          refine (recordCompaction reflexive outputId job).bind fun _ => ?_
          exact (installCompaction job output).bind fun _ => removeInputs _ job.inputs

theorem workerPass (reflexive : ∀ level, levels level level) :
    InStep (Shadows levels sameLog) (workerPass : Action fmt Unit) workerPass := by
  rintro _ _ ⟨wal, bytes, manifest, log, next, tables, recorded⟩
  rename_i disk engine
  unfold LsmStore.workerPass
  by_cases idle : engine.inbox = 0 ∨ engine.running = false
  · rw [if_pos idle, if_pos idle]
    exact .ok _ (.intro wal bytes manifest log next tables recorded)
  · rw [if_neg idle, if_neg idle]
    have passed := compactOnce reflexive ⟨disk, { engine with inbox := engine.inbox - 1 }, []⟩ _
      (.intro wal bytes manifest log next tables recorded)
    dsimp only
    revert passed
    generalize LsmStore.compactOnce _ = ended
    generalize LsmStore.compactOnce _ = ended'
    intro passed
    cases passed with
    | ok value reached => exact .ok _ reached
    | error failure reached =>
        cases failure with
        | error cause => cases reached; exact .ok _ (.intro _ _ _ ‹_› ‹_› ‹_› ‹_›)
        | panic => cases reached; exact .ok _ (.intro _ _ _ ‹_› ‹_› ‹_› ‹_›)

theorem drain (reflexive : ∀ level, levels level level) (requests : Nat) :
    InStep (Shadows levels sameLog) (drain requests : Action fmt Unit) (drain requests) := by
  induction requests with
  | zero => exact .pure ()
  | succ requests ih => exact (workerPass reflexive).bind fun _ => ih

theorem shutdown (reflexive : ∀ level, levels level level) :
    InStep (Shadows levels sameLog) (shutdown : Action fmt Unit) shutdown := by
  refine current ?_
  rintro _ _ ⟨wal, bytes, manifest, log, next, tables, recorded⟩
  exact drain reflexive _

/-- **Every command but the reopening runs in step.** -/
theorem command (reflexive : ∀ level, levels level level) {command : Command}
    (stays : command ≠ .reopen) :
    InStep (Shadows levels sameLog) (command.action : Action fmt Unit) command.action := by
  cases command with
  | put key value => exact put reflexive key value
  | delete key => exact delete reflexive key
  | get key => exact (get key).bind fun _ => .pure ()
  | flush => exact flush reflexive
  | compact => exact compactOnce reflexive
  | workerPass => exact workerPass reflexive
  | reopen => exact absurd rfl stays

/-! ## Conditions of a run -/

theorem execute (reflexive : ∀ level, levels level level) {command : Command}
    (stays : command ≠ .reopen) (shadows : Shadows levels sameLog db shadow) :
    (∀ next', LsmStore.execute command shadow = .ok next' →
        ∃ next, LsmStore.execute command db = .ok next ∧ Shadows levels sameLog next next') ∧
      ∀ failure, LsmStore.execute command shadow = .error failure →
        LsmStore.execute command db = .error failure := by
  have alike := Shadows.command reflexive stays db shadow shadows
  unfold LsmStore.execute
  revert alike
  generalize (command.action : Action fmt Unit) db = ended
  generalize (command.action : Action fmt Unit) shadow = ended'
  intro alike
  cases alike with
  | ok value reached =>
      refine ⟨?_, nofun⟩
      intro next' same
      cases same
      exact ⟨_, rfl, reached⟩
  | error failure reached =>
      cases failure with
      | panic => exact ⟨nofun, fun _ same => same⟩
      | error cause =>
          dsimp only
          rw [if_neg stays, if_neg stays]
          refine ⟨?_, nofun⟩
          intro next' same
          cases same
          exact ⟨_, rfl, reached⟩

variable {Fits : Options → List (Key × Entry) → Prop}

theorem compactionFits (shadows : Shadows levels sameLog db shadow)
    (fits : CompactionFits Fits db) : CompactionFits Fits shadow := by
  cases shadows
  exact fits

theorem drainFits (reflexive : ∀ level, levels level level) (requests : Nat)
    (shadows : Shadows levels sameLog db shadow) (fits : DrainFits Fits requests db) :
    DrainFits Fits requests shadow := by
  induction requests generalizing db shadow with
  | zero => trivial
  | succ requests ih =>
      refine ⟨?_, ?_⟩
      · cases shadows
        exact fits.1
      · intro next' passed
        obtain ⟨next, passes, shadows'⟩ :=
          (Shadows.workerPass reflexive db shadow shadows).of_ok' passed
        exact ih shadows' (fits.2 next passes)

theorem admitted (reflexive : ∀ level, levels level level) {command : Command}
    (stays : command ≠ .reopen) (shadows : Shadows levels sameLog db shadow)
    (fits : Admitted Fits command db) : Admitted Fits command shadow := by
  cases command with
  | put key value => cases shadows; exact fits
  | delete key => cases shadows; exact fits
  | get key => trivial
  | flush => cases shadows; exact fits
  | compact => exact shadows.compactionFits fits
  | workerPass => exact shadows.drainFits reflexive 1 fits
  | reopen => exact absurd rfl stays

theorem safe {command : Command} (shadows : Shadows levels sameLog db shadow)
    (safe : Safe command db) : Safe command shadow := by
  have room : Roomy db → Roomy shadow := by
    cases shadows with
    | intro wal bytes manifest log next tables recorded =>
        unfold Roomy
        rw [next]
        exact id
  cases command with
  | put key value => exact room safe
  | delete key => exact room safe
  | flush => exact room safe
  | compact =>
      refine ⟨room safe.1, ?_⟩
      cases shadows
      exact safe.2
  | get key => trivial
  | workerPass => trivial
  | reopen => trivial

end Shadows

/-! ## Databases with a consistent shadow -/

section Backed

variable {Fits : Options → List (Key × Entry) → Prop} {sound : fmt.Sound Fits}
  {levels : UInt32 → UInt32 → Prop} {sameLog : Prop} {history : List Operation} {db : Db fmt}

/-- The database has a consistent shadow that shows what a history of writes left. -/
def Backed (sound : fmt.Sound Fits) (levels : UInt32 → UInt32 → Prop) (sameLog : Prop)
    (history : List Operation) (db : Db fmt) : Prop :=
  ∃ shadow, Shadows levels sameLog db shadow ∧ Consistent sound shadow ∧
    ∀ key, shadow.reading key = reference history key

namespace Backed

/-- **Reads return what the history left.** -/
theorem eval_get (backed : Backed sound levels sameLog history db) {key : Key}
    (valid : validateKey key = .ok ()) : db.eval (get key) = .ok (reference history key) := by
  obtain ⟨shadow, shadows, consistent, shown⟩ := backed
  have read := consistent.eval_get valid
  rw [shown key] at read
  rw [← read]
  have alike := Shadows.get key db shadow shadows
  unfold Db.eval
  revert alike
  generalize get key db = ended
  generalize get key shadow = ended'
  intro alike
  cases alike <;> rfl

theorem planned_nil (backed : Backed sound levels sameLog history db) : db.planned [] = db := by
  obtain ⟨shadow, shadows, _⟩ := backed
  cases shadows
  rfl

theorem positive (backed : Backed sound levels sameLog history db) :
    1 ≤ db.engine.options.maxLevels := by
  obtain ⟨shadow, shadows, consistent, _⟩ := backed
  cases shadows
  exact consistent.positive

/-- A database that is consistent is its own shadow. -/
theorem of_consistent (reflexive : ∀ level, levels level level) (consistent : Consistent sound db)
    (shown : ∀ key, db.reading key = reference history key) :
    Backed sound levels sameLog history db := by
  refine ⟨db, ?_, consistent, shown⟩
  obtain ⟨disk, engine, faults⟩ := db
  obtain rfl : faults = [] := consistent.noFaults
  exact .intro disk.wal disk.manifest engine.manifest (fun _ => rfl) rfl
    (List.forall₂_same.mpr fun _ _ => ⟨rfl, reflexive _⟩) consistent.recorded

/-- **A command goes on as in the shadow**: it adds its write to the history, or it panics. -/
theorem execute (reflexive : ∀ level, levels level level)
    (backed : Backed sound levels sameLog history db) {command : Command}
    (stays : command ≠ .reopen) (admitted : Admitted Fits command db) :
    (∃ next, execute command db = .ok next ∧
        Backed sound levels sameLog (history ++ command.operation.toList) next) ∨
      ¬ Safe command db ∧ LsmStore.execute command db = .error .panic := by
  obtain ⟨shadow, shadows, consistent, shown⟩ := backed
  let ghost : Ghost := { Ghost.start with history := history }
  obtain ⟨goes, panics⟩ := shadows.execute reflexive stays
  rcases execute_steps consistent (shadows.admitted reflexive stays admitted) ghost with
    ⟨next', done, steps⟩ | ⟨unsafe_, failed⟩
  · obtain ⟨next, executed, shadows'⟩ := goes next' done
    refine .inl ⟨next, executed, next', shadows', steps_consistent steps consistent, ?_⟩
    intro key
    have refines := steps_refines steps consistent shown key
    rwa [Ghost.history_after] at refines
  · exact .inr ⟨fun safe => unsafe_ (shadows.safe safe), panics _ failed⟩

/-- The worker's last passes go on as in the shadow. -/
theorem shutdown (reflexive : ∀ level, levels level level)
    (backed : Backed sound levels sameLog history db)
    (fits : DrainFits Fits db.engine.inbox db) :
    ∃ next, shutdown db = .ok () next ∧ Backed sound levels sameLog history next ∧
      next.engine.options = db.engine.options := by
  obtain ⟨shadow, shadows, consistent, shown⟩ := backed
  let ghost : Ghost := { Ghost.start with history := history }
  have requests : shadow.engine.inbox = db.engine.inbox := by rw [shadows.engine_eq]
  have options : shadow.engine.options = db.engine.options := by rw [shadows.engine_eq]
  have fits' := shadows.drainFits reflexive _ fits
  rw [← requests] at fits'
  obtain ⟨next', drained, steps⟩ := drain_steps _ consistent fits' ghost
  obtain ⟨next, closed, shadows'⟩ :=
    (Shadows.shutdown reflexive db shadow shadows).of_ok'
      (show LsmStore.shutdown shadow = .ok () next' from drained)
  refine ⟨next, closed, ⟨next', shadows', steps_consistent steps consistent, ?_⟩, ?_⟩
  · intro key
    have refines := steps_refines steps consistent shown key
    rwa [Ghost.history_drain] at refines
  · have same : next'.engine.options = next.engine.options := by rw [shadows'.engine_eq]
    rw [← same, ← options]
    exact steps_options steps

end Backed

end Backed

end LsmStore
