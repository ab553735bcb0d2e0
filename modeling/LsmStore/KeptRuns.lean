import LsmStore.Effects
import LsmStore.Kept

/-!
# Runs in which operations fail

A run is a list of commands, each with a plan of verdicts on its file operations.
A command that returns an error leaves an engine to go on with.  `Left.attempt`
says what a command keeps, and `Left.attemptAll` what a whole run keeps.
-/

set_option autoImplicit false

namespace LsmStore

open Foundation

variable {fmt : TableFormat} {Fits : Options → List (Key × Entry) → Prop}

/-! ## Passes -/

/-- Once a pass has recorded its output, the removals of its inputs do not fail; and
if the append of the output's record fails, it has not written all of it.  The first
two operations of a pass, the allocation and the table, may fail in any way. -/
def EditWhole (plan : List Verdict) : Prop :=
  (∀ verdict ∈ plan.take 2, verdict = .done) →
    (∃ progress, plan[2]? = some (.fail progress) ∧ progress < manifestRecordLen) ∨
      ∀ verdict ∈ plan.drop 2, verdict = .done

instance : DecidableEq Verdict
  | .done, .done => isTrue rfl
  | .done, .fail _ | .fail _, .done => isFalse nofun
  | .fail first, .fail second =>
      decidable_of_iff (first = second) ⟨congrArg _, fun same => Verdict.fail.inj same⟩

theorem EditWhole.of_passed {db mid made : Db fmt} (whole : EditWhole db.faults)
    (first : db.Passed mid) (second : mid.Passed made) :
    (∃ progress rest, made.faults = .fail progress :: rest ∧ progress < manifestRecordLen) ∨
      ∀ verdict ∈ made.faults, verdict = .done := by
  have split : (db.faults = [] ∨ db.faults = [.done] ∨
      db.faults = .done :: .done :: made.faults) ∧ (db.faults.drop 2 = made.faults) := by
    rcases first with ⟨nothing, midNothing⟩ | isPlan
    · rcases second with ⟨_, madeNothing⟩ | midPlan
      · rw [nothing, madeNothing]
        exact ⟨.inl rfl, rfl⟩
      · rw [midNothing] at midPlan
        cases midPlan
    · rcases second with ⟨midNothing, madeNothing⟩ | midPlan
      · rw [isPlan, midNothing, madeNothing]
        exact ⟨.inr (.inl rfl), rfl⟩
      · rw [isPlan, midPlan]
        exact ⟨.inr (.inr rfl), rfl⟩
  obtain ⟨shape, rest⟩ := split
  have passed : ∀ verdict ∈ db.faults.take 2, verdict = .done := by
    rcases shape with isPlan | isPlan | isPlan <;> rw [isPlan] <;> simp
  rcases whole passed with ⟨progress, isThird, short⟩ | done
  · refine .inl ⟨progress, made.faults.tail, ?_, short⟩
    rw [← rest]
    rw [← List.head?_drop] at isThird
    exact List.eq_cons_of_mem_head? isThird
  · rw [rest] at done
    exact .inr done

/-- What the records of a pass make of a manifest, whose own next id may lag behind. -/
def Manifest.edited (manifest : Manifest) (outputId : UInt64) (job : CompactionJob fmt) :
    Manifest :=
  (({ manifest with nextTableId := outputId + 1 } : Manifest).added outputId
    (UInt32.ofNat job.outputLevel)).removed (job.inputs.map SsTable.id)

theorem Manifest.replayAll_edited {manifest : Manifest} {outputId : UInt64}
    (unlisted : manifest.lists outputId = false) (job : CompactionJob fmt) :
    replayAll (compactionRecords outputId job) manifest = .ok (manifest.edited outputId job) := by
  have unlisted' : ({ manifest with nextTableId := outputId + 1 } : Manifest).lists outputId =
      false := unlisted
  exact (replayAll_add unlisted' _ _).trans (replayAll_removes _ _)

/-- **How a pass can fail**: in picking, in allocating the output's id, in writing the
output, or in editing the manifest. -/
theorem compactOnce_of_error {db after : Db fmt} {failure : Failure}
    (inside : ∀ job, pickCompaction db.engine.version db.engine.options = .ok (some job) →
      job.outputLevel < db.engine.version.levels.length)
    (inVersion : ∀ job, pickCompaction db.engine.version db.engine.options = .ok (some job) →
      ∀ input ∈ job.inputs, input ∈ db.engine.version.tablesNewestFirst)
    (failed : compactOnce db = .error failure after) :
    (pickCompaction db.engine.version db.engine.options = .error failure ∧ after = db) ∨
      ∃ job, pickCompaction db.engine.version db.engine.options = .ok (some job) ∧
        (nextTableId db = .error failure after ∨ ∃ outputId mid,
          nextTableId db = .ok outputId mid ∧
            (writeOutput db.engine.version job outputId mid = .error failure after ∨
              ∃ output made, writeOutput db.engine.version job outputId mid = .ok output made ∧
                recordCompaction outputId job made = .error failure after)) := by
  unfold compactOnce at failed
  rcases bind_eq_error.mp failed with impossible | ⟨_, _, isState, failed⟩
  · cases impossible
  cases isState
  cases picked : pickCompaction db.engine.version db.engine.options with
  | error cause =>
      rw [picked] at failed
      cases failed
      exact .inl ⟨rfl, rfl⟩
  | ok choice =>
      rw [picked] at failed
      cases choice with
      | none => cases failed
      | some job =>
          refine .inr ⟨job, rfl, ?_⟩
          dsimp only at failed
          rcases bind_eq_error.mp failed with failed | ⟨outputId, mid, allocated, failed⟩
          · exact .inl failed
          refine .inr ⟨outputId, mid, allocated, ?_⟩
          rcases bind_eq_error.mp failed with failed | ⟨output, made, written, failed⟩
          · exact .inl failed
          refine .inr ⟨output, made, written, ?_⟩
          rcases bind_eq_error.mp failed with failed | ⟨_, listed, recorded, failed⟩
          · exact failed
          -- Installing and cleaning up do not fail.
          exfalso
          have sameVersion : listed.engine.version = db.engine.version := by
            obtain ⟨_, _, _, rfl⟩ := nextTableId_of_ok allocated
            obtain ⟨merged, created⟩ := exists_createTable_of_writeOutput written
            obtain ⟨_, _, _, _, _, rfl⟩ := createTable_of_ok created
            obtain ⟨_, _, added, removed⟩ := bind_eq_ok.mp recorded
            obtain ⟨_, _, rfl⟩ := addTable_of_ok added
            obtain ⟨_, rfl⟩ := removeTables_of_ok removed
            rfl
          have installs := @installCompaction_eq fmt listed job
            (by rw [sameVersion]; exact inside job picked) output
          rcases bind_eq_error.mp failed with failed | ⟨_, _, _, failed⟩
          · rw [installs] at failed
            cases failed
          · rw [removeInputs_eq (inVersion job picked)] at failed
            cases failed

namespace Stage

variable {sound : fmt.Sound Fits} {clean : Prop} {expected : Key → Option Bytes} {db : Db fmt}
  {shelf : Shelf fmt} {job : CompactionJob fmt}

theorem unlisted_next (stage : Stage sound clean expected db shelf) :
    db.engine.manifest.lists db.engine.manifest.nextTableId = false := by
  by_contra listed
  have member := Manifest.lists_iff.mp (by simpa using listed)
  obtain ⟨other, inVersion, same⟩ := stage.kept.mirrored.lists_iff.mp member
  exact Kept.fresh_of_unused stage.kept.stocked (stage.kept.unused (le_refl _)) other inVersion same

/-- A pass that ran its job. -/
theorem compacted (stage : Stage sound clean expected db shelf) {file : fmt.File}
    {handle : fmt.Handle} (room : db.engine.manifest.nextTableId.toNat + 1 ≤ u64Max)
    (picked : pickCompaction db.engine.version db.engine.options = .ok (some job))
    (fits : Fits db.engine.options (mergedEntries db.disk.sst job (db.drops job)))
    (created : fmt.create db.engine.options (mergedEntries db.disk.sst job (db.drops job)) =
      .ok (file, handle)) (faults : List Verdict) :
    Left sound clean expected (db.compacted job file handle faults) := by
  have kept := stage.kept
  have absent := kept.unused (le_refl db.engine.manifest.nextTableId.toNat)
  have fresh := Kept.fresh_of_unused kept.stocked absent
  have admissible := kept.stocked.levelled.admissible_of_pick kept.depth picked
  obtain ⟨stocked, lookups⟩ := stocked_compacted kept.stocked kept.depth fresh picked fits created
    faults
  have untaken : job.takes ⟨db.engine.manifest.nextTableId, handle⟩ = false := by
    by_contra taken
    obtain ⟨input, isInput, same⟩ := CompactionJob.takes_iff.mp (by simpa using taken)
    exact fresh input (admissible.inputs_mem isInput) same
  have mirrored := kept.mirrored.install admissible.inside untaken (keeps_level_zero_of_pick picked)
  have unlisted : shelf.manifest.lists db.engine.manifest.nextTableId = false := by
    rw [Manifest.lists, stage.aligned]
    exact stage.unlisted_next
  obtain ⟨recorded, whole⟩ := kept.shelved.recorded.append_log stage.whole
    (Manifest.replayAll_edited unlisted job)
  have next := toNat_succ room
  have behind := kept.behind
  refine ⟨⟨shelf.manifest.edited db.engine.manifest.nextTableId job, installed db.engine.version job ⟨db.engine.manifest.nextTableId, handle⟩,
    shelf.operations⟩, ?_, fun _ => ⟨?_, whole⟩⟩
  · exact
      { shelved :=
          { kept.shelved with
            recorded := recorded
            mirrored := by
              change Mirrors ((shelf.manifest.tables ++ _).filter _) _
              rw [stage.aligned]
              exact mirrored
            depth := (length_levels_installed _ _ _).trans kept.depth
            stocked := stocked }
        depth := (length_levels_installed _ _ _).trans kept.depth
        stocked := stocked
        mirrored := mirrored
        deeper := fun _ _ => rfl
        inStep := fun _ => rfl
        used := by
          intro id present
          change id.toNat < (db.engine.manifest.nextTableId + 1).toNat
          by_cases same : id = db.engine.manifest.nextTableId
          · rw [same]
            omega
          · change Function.update db.disk.sst _ (some file) id ≠ none at present
            rw [Function.update_of_ne same] at present
            have below := kept.used id present
            omega
        behind := le_refl _
        coherent := sound.coherent_create _ file kept.coherent absent
        logged := kept.logged
        reads := by
          intro key
          rw [← kept.reads key]
          exact Db.reading_congr rfl rfl (lookups key)
        restores := by
          intro key
          have tables := lookups key
          rw [← stage.tableLookup_eq] at tables
          rw [← kept.restores key]
          unfold Shelf.reading
          cases (applyAll shelf.operations).get key with
          | some entry => rfl
          | none => exact tables
        settled := by
          intro key absent parked
          have tables := lookups key
          rw [← stage.tableLookup_eq] at tables
          exact tables.trans (kept.settled key absent parked) }
  · change (shelf.manifest.tables ++ _).filter _ = (db.engine.manifest.tables ++ _).filter _
    rw [stage.aligned]

end Stage

section Passes

variable {sound : fmt.Sound Fits} {clean : Prop} {expected : Key → Option Bytes} {db : Db fmt}

/-- The record of the output is not all written. -/
theorem Stage.addTable_torn {shelf : Shelf fmt} (stage : Stage sound clean expected db shelf)
    {id : UInt64} {level : UInt32} {after : Db fmt} {failure : Failure}
    (failed : addTable id level db = .error failure after)
    (torn : (∃ progress rest, db.faults = .fail progress :: rest ∧ progress < manifestRecordLen) ∨
      ∀ verdict ∈ db.faults, verdict = .done) :
    failure ≠ .panic ∧ Left sound clean expected after := by
  rcases addTable_of_error failed with ⟨rfl, _, rfl⟩ | ⟨rfl, progress, faults, isPlan, rfl⟩
  · exact ⟨nofun, stage.left⟩
  · refine ⟨nofun, ?_⟩
    have short : progress < manifestRecordLen := by
      rcases torn with ⟨other, rest, isPlan', short⟩ | done
      · rw [isPlan] at isPlan'
        cases isPlan'
        exact short
      · have impossible := done (.fail progress) (by rw [isPlan]; exact List.mem_cons_self)
        cases impossible
    obtain ⟨records, isLog, replayed⟩ := stage.kept.shelved.recorded.records_of_whole stage.whole
    have recorded : RecordsTo (db.disk.manifest ++
        (ManifestRecord.addTable id level).encode.take progress) shelf.manifest := by
      refine ⟨records, _, by rw [isLog], ?_, replayed⟩
      rw [List.length_take]
      exact lt_of_le_of_lt (Nat.min_le_left _ _) short
    refine ⟨_, stage.kept.withManifest db.engine.manifest recorded rfl rfl (le_refl _)
      stage.kept.behind faults, fun isClean => ⟨stage.aligned, ?_⟩⟩
    dsimp only
    rw [stage.progress_eq isPlan isClean, List.take_zero, List.append_nil]
    exact stage.whole

/-- An edit that fails has failed in its first record. -/
theorem Stage.recordCompaction_torn {shelf : Shelf fmt}
    (stage : Stage sound clean expected db shelf) {id : UInt64} {job : CompactionJob fmt}
    {after : Db fmt} {failure : Failure} (failed : recordCompaction id job db = .error failure after)
    (torn : (∃ progress rest, db.faults = .fail progress :: rest ∧ progress < manifestRecordLen) ∨
      ∀ verdict ∈ db.faults, verdict = .done) :
    failure ≠ .panic ∧ Left sound clean expected after := by
  rcases bind_eq_error.mp failed with failed | ⟨_, added, done, failed⟩
  · exact stage.addTable_torn failed torn
  · exfalso
    obtain ⟨_, _, _, _, progress, _, _, planned, _⟩ := removeTables_of_error failed
    rcases torn with ⟨other, rest, isPlan, _⟩ | allDone
    · rcases addTable_passed done with ⟨impossible, _⟩ | impossible
      · rw [isPlan] at impossible
        cases impossible
      · rw [isPlan] at impossible
        cases impossible
    · rcases addTable_passed done with ⟨_, nothing⟩ | isPlan
      · rw [nothing] at planned
        cases planned
      · have impossible := allDone (.fail progress)
          (by rw [isPlan]; exact List.mem_cons_of_mem _ planned)
        cases impossible

/-- **A pass keeps the database** unless it fails in the middle of its edit. -/
theorem Left.compactOnce (left : Left sound clean expected db) (inStep : db.InStep)
    (planned : clean → ∀ verdict ∈ db.faults, verdict.Clean) (fits : CompactionFits Fits db)
    (whole : EditWhole db.faults) :
    Yields LsmStore.compactOnce db (fun _ after => Left sound clean expected after)
      (Fails sound clean expected
        (Roomy db ∧ pickCompaction db.engine.version db.engine.options ≠ .error .panic)) := by
  obtain ⟨shelf, kept, _⟩ := left
  have stage := kept.stage inStep planned
  refine Yields.intro ?_ ?_
  · intro _ after done
    rcases compactOnce_of_ok kept.depth done with
      ⟨_, rfl⟩ | ⟨job, file, handle, faults, picked, _, room, created, rfl⟩
    · exact stage.left
    · exact stage.compacted room picked (fits job picked) created faults
  · intro failure after failed
    have admissible : ∀ job, pickCompaction db.engine.version db.engine.options = .ok (some job) →
        Admissible (entriesOn db.disk.sst) db.engine.version job (db.drops job) :=
      fun job picked => kept.stocked.levelled.admissible_of_pick kept.depth picked
    have allocates := @Stage.nextTableId _ _ _ _ _ _ _ (Roomy db) stage id
    rcases compactOnce_of_error (fun job picked => (admissible job picked).inside)
      (fun job picked input isInput => (admissible job picked).inputs_mem isInput) failed with
      ⟨picked, rfl⟩ | ⟨job, picked, failed | ⟨outputId, mid, allocated, later⟩⟩
    · exact ⟨stage.left, fun isPanic safe => safe.2 (by rw [picked, isPanic])⟩
    · obtain ⟨left, isFull⟩ := allocates.error failed
      exact ⟨left, fun isPanic safe => isFull isPanic safe.1⟩
    · obtain ⟨rfl, first, files, isEngine, durable, below, stage₁⟩ := allocates.ok allocated
      have inputsHeld : ∀ input ∈ job.inputs, Held sound db.disk.sst input :=
        fun input isInput => kept.stocked.held input ((admissible job picked).inputs_mem isInput)
      have absent : mid.disk.sst db.engine.manifest.nextTableId = none := by
        rw [files]
        exact kept.unused (le_refl _)
      have writes := @Stage.createTable _ _ _ _ _ _ _ True stage₁
        db.engine.manifest.nextTableId (mergedEntries db.disk.sst job (db.drops job)) absent
        below (mergedEntries_spec inputsHeld (db.drops job)).2.1
        (by rw [isEngine]; exact fits job picked)
      have isOutput : writeOutput db.engine.version job db.engine.manifest.nextTableId mid =
          LsmStore.createTable db.engine.manifest.nextTableId
            (mergedEntries db.disk.sst job (db.drops job)) mid := by
        rw [writeOutput_eq sound _ _ mid (by rw [files]; exact inputsHeld), files, isEngine]
        rfl
      rw [isOutput] at later
      rcases later with failed | ⟨output, made, written, failed⟩
      · obtain ⟨left, isFull⟩ := writes.error failed
        exact ⟨left, fun isPanic => absurd trivial (isFull isPanic)⟩
      · obtain ⟨_, _, _, _, _, _, second, _, _, stage₂⟩ := writes.ok written
        obtain ⟨noPanic, left⟩ := stage₂.recordCompaction_torn failed (whole.of_passed first second)
        exact ⟨left, fun isPanic => absurd isPanic noPanic⟩

/-- The worker's pass; it returns no error. -/
theorem Left.workerPass (left : Left sound clean expected db)
    (inStep : db.engine.inbox ≠ 0 → db.engine.running = true → db.InStep)
    (planned : clean → ∀ verdict ∈ db.faults, verdict.Clean) (fits : DrainFits Fits 1 db)
    (whole : EditWhole db.faults) :
    ∃ after, LsmStore.workerPass db = .ok () after ∧ Left sound clean expected after := by
  unfold LsmStore.workerPass
  by_cases idle : db.engine.inbox = 0 ∨ db.engine.running = false
  · rw [if_pos idle]
    exact ⟨db, rfl, left⟩
  · rw [if_neg idle]
    obtain ⟨pending, alive⟩ := not_or.mp idle
    have running : db.engine.running = true := by simpa using alive
    have taken := left.note left.coherent db.engine.lastError db.engine.bloomSkips
      db.engine.sstableReads (db.engine.inbox - 1) db.engine.running
    have passes := taken.compactOnce (inStep pending running) planned (fits.1 pending running) whole
    dsimp only
    cases ran : LsmStore.compactOnce
        { db with engine := { db.engine with inbox := db.engine.inbox - 1 } } with
    | ok value after => exact ⟨after, rfl, passes.ok ran⟩
    | error failure after =>
        have left' := (passes.error ran).1
        cases failure with
        | error cause =>
            exact ⟨_, rfl, left'.note left'.coherent _ after.engine.bloomSkips
              after.engine.sstableReads after.engine.inbox after.engine.running⟩
        | panic =>
            exact ⟨_, rfl, left'.note left'.coherent after.engine.lastError
              after.engine.bloomSkips after.engine.sstableReads after.engine.inbox _⟩

end Passes

/-! ## Plans are used up -/

/-- However it ends, the action leaves a part of the plan it began with. -/
def Consumes {α : Type} (action : Action fmt α) : Prop :=
  ∀ db, Yields action db (fun _ after => after.faults <:+ db.faults)
    (fun _ after => after.faults <:+ db.faults)

namespace Consumes

/-- Every elementary action takes its verdicts from the front of the plan. -/
theorem effects : Effects fun db after : Db fmt => after.faults <:+ db.faults where
  refl db := List.suffix_refl db.faults
  trans _ _ _ first second := second.trans first
  files _ _ touched := touched.2
  modifyManifest _ db := List.suffix_refl db.faults
  freeze db := List.suffix_refl db.faults
  pushFront table db := by
    unfold Yields pushFront
    cases db.engine.version.pushFront table <;> exact List.suffix_refl _
  clearImmutable db := List.suffix_refl db.faults
  applyOperation _ db := List.suffix_refl db.faults
  installCompaction job output db := by
    unfold Yields installCompaction
    cases applyCompaction db.engine.version job output <;> exact List.suffix_refl _
  notes db _ _ _ _ _ _ := List.suffix_refl db.faults

theorem workerPass : Consumes (workerPass : Action fmt Unit) := effects.workerPass

end Consumes

/-! ## Closing and reopening -/

theorem drain_of_idle (requests : Nat) {db : Db fmt}
    (idle : db.engine.inbox = 0 ∨ db.engine.running = false) : drain requests db = .ok () db := by
  induction requests with
  | zero => rfl
  | succ requests ih =>
      have passed : workerPass db = .ok () db := if_pos idle
      exact (bind_of_ok passed).trans ih

section Reopening

variable {sound : fmt.Sound Fits} {clean : Prop} {expected : Key → Option Bytes} {db : Db fmt}

theorem Left.inStep (left : Left sound clean expected db) (isClean : clean) : db.InStep := by
  obtain ⟨shelf, kept, agrees⟩ := left
  obtain ⟨aligned, whole⟩ := agrees isClean
  refine ⟨whole, ?_⟩
  rw [kept.shelved.recorded.recover]
  exact congrArg Except.ok aligned

/-- Manifest file and memory in step, whatever happened before. -/
theorem Left.clean_of_inStep (left : Left sound clean expected db) (inStep : db.InStep) :
    Left sound True expected db := by
  obtain ⟨shelf, kept, _⟩ := left
  have stage : Stage sound False expected db shelf := kept.stage inStep False.elim
  exact ⟨shelf, kept, fun _ => ⟨stage.aligned, stage.whole⟩⟩

theorem Left.weaken (left : Left sound True expected db) : Left sound clean expected db := by
  obtain ⟨shelf, kept, agrees⟩ := left
  exact ⟨shelf, kept, fun _ => agrees trivial⟩

/-- The worker's remaining passes, of which none fails. -/
theorem Left.drain (requests : Nat) (left : Left sound True expected db) (noFaults : db.faults = [])
    (fits : DrainFits Fits requests db) :
    ∃ after, LsmStore.drain requests db = .ok () after ∧ Left sound True expected after ∧
      after.faults = [] := by
  induction requests generalizing db with
  | zero => exact ⟨db, rfl, left, noFaults⟩
  | succ requests ih =>
      obtain ⟨mid, passed, left'⟩ := left.workerPass (fun _ _ => left.inStep trivial)
        (by rw [noFaults]; exact fun _ => List.forall_mem_nil _) ⟨fits.1, fun _ _ => trivial⟩
        (by rw [noFaults]; exact fun _ => .inr (List.forall_mem_nil _))
      have noFaults' : mid.faults = [] := by
        have part := (Consumes.workerPass db).ok passed
        rw [noFaults] at part
        exact List.suffix_nil.mp part
      obtain ⟨after, drained, rest⟩ := ih left' noFaults' (fits.2 mid passed)
      exact ⟨after, (bind_of_ok passed).trans drained, rest⟩

/-- **Closing and reopening keeps the database.** -/
theorem Left.reopen (left : Left sound clean expected db) (noFaults : db.faults = [])
    (inStep : db.engine.inbox ≠ 0 → db.engine.running = true → db.InStep)
    (fits : DrainFits Fits db.engine.inbox db) (reopens : ReopenFits db) :
    ∃ after, LsmStore.reopen db = .ok () after ∧ Left sound clean expected after := by
  have closes : ∃ mid, shutdown db = .ok () mid ∧ Left sound clean expected mid ∧
      mid.faults = [] := by
    by_cases idle : db.engine.inbox = 0 ∨ db.engine.running = false
    · exact ⟨db, drain_of_idle _ idle, left, noFaults⟩
    · obtain ⟨pending, alive⟩ := not_or.mp idle
      have clean := left.clean_of_inStep (inStep pending (by simpa using alive))
      obtain ⟨mid, drained, left', noFaults'⟩ := clean.drain db.engine.inbox noFaults fits
      exact ⟨mid, drained, left'.weaken, noFaults'⟩
  obtain ⟨mid, closed, ⟨shelf, kept, agrees⟩, noFaults'⟩ := closes
  obtain ⟨engine, shelf', opened, kept', aligned⟩ := kept.reopened (reopens mid closed) mid.faults
  refine ⟨⟨mid.disk, engine, mid.faults⟩, ?_, shelf', kept',
    fun isClean => ⟨aligned, (agrees isClean).2⟩⟩
  refine bind_eq_ok.mpr ⟨(), mid, closed, bind_eq_ok.mpr ⟨mid, mid, rfl, ?_⟩⟩
  rw [opened]
  rfl

/-- A read changes the cache and the counters. -/
theorem Left.get (left : Left sound clean expected db) (key : Key) :
    Yields (LsmStore.get key) db (fun _ after => Left sound clean expected after)
      (fun failure after => (∃ cause, failure = .error cause) ∧ Left sound clean expected after) := by
  obtain ⟨shelf, kept, agrees⟩ := left
  have left : Left sound clean expected db := ⟨shelf, kept, agrees⟩
  obtain ⟨cache, skips, reads, searched, coherent⟩ := searchTables_spec sound key
    kept.stocked.held kept.coherent
  unfold Yields LsmStore.get
  cases validateKey key with
  | error cause => exact ⟨⟨cause, rfl⟩, left⟩
  | ok _ =>
      cases db.engine.memtable.get key with
      | some entry => cases entry <;> exact left
      | none =>
          cases db.engine.immutable.bind (·.get key) with
          | some entry => cases entry <;> exact left
          | none =>
              dsimp only
              rw [getFromTables, searched]
              exact left.note coherent db.engine.lastError skips reads db.engine.inbox
                db.engine.running

end Reopening

/-! ## Runs -/

/-- The state after a command whose file operations follow a plan. -/
def attempt (command : Command) (plan : List Verdict) (db : Db fmt) : Except Failure (Db fmt) :=
  match execute command (db.planned plan) with
  | .error failure => .error failure
  | .ok after => .ok (after.planned [])

/-- The state after a list of commands with their plans. -/
def attemptAll : List (Command × List Verdict) → Db fmt → Except Failure (Db fmt)
  | [], db => .ok db
  | (command, plan) :: rest, db =>
      match attempt command plan db with
      | .error failure => .error failure
      | .ok after => attemptAll rest after

theorem attemptAll_append (first second : List (Command × List Verdict)) (db : Db fmt) :
    attemptAll (first ++ second) db =
      match attemptAll first db with
      | .error failure => .error failure
      | .ok mid => attemptAll second mid := by
  induction first generalizing db with
  | nil => rfl
  | cons pair rest ih =>
      obtain ⟨command, plan⟩ := pair
      rw [List.cons_append, attemptAll, attemptAll]
      cases attempt command plan db with
      | error failure => rfl
      | ok after => exact ih after

section Unfailing

variable {db : Db fmt}

/-- A put that does not fill the memtable is logged and applied. -/
theorem attempt_put {key value : Bytes} (noFaults : db.faults = [])
    (keyValid : validateKey key = .ok ()) (valueValid : validateValue value = .ok ())
    (small : (db.engine.memtable.put key value).approximateSize <
      db.engine.options.memtableSizeBytes) :
    attempt (.put key value) [] db = .ok (db.written (.put key value)) := by
  obtain ⟨disk, engine, faults⟩ := db
  obtain rfl : faults = [] := noFaults
  obtain ⟨_, short⟩ := validateKey_eq_ok_iff.mp keyValid
  have fits : (Operation.put key value).Fits := ⟨short, validateValue_eq_ok_iff.mp valueValid⟩
  have writes := @write_eq fmt (.put key value) disk engine fits
  have notFull : ¬ (apply engine.memtable (.put key value)).approximateSize ≥
      engine.options.memtableSizeBytes := not_le.mpr small
  rw [if_neg notFull] at writes
  have puts : put key value (⟨disk, engine, []⟩ : Db fmt) =
      .ok () ((⟨disk, engine, []⟩ : Db fmt).written (.put key value)) := by
    unfold put
    rw [keyValid]
    dsimp only
    rw [valueValid]
    exact writes
  rw [attempt, show (⟨disk, engine, []⟩ : Db fmt).planned [] = ⟨disk, engine, []⟩ from rfl,
    execute_of_ok (show (Command.put key value).action _ = _ from puts)]
  rfl

/-- A read that returns a value. -/
theorem attempt_get {next : Db fmt} {key : Key} {value : Option Bytes} (noFaults : db.faults = [])
    (read : get key db = .ok value next) : attempt (.get key) [] db = .ok (next.planned []) := by
  obtain ⟨disk, engine, faults⟩ := db
  obtain rfl : faults = [] := noFaults
  have reads : (Command.get key).action (⟨disk, engine, []⟩ : Db fmt) = .ok () next := by
    change EStateM.map (Function.const _ ()) (get key) _ = _
    rw [EStateM.map, read]
  rw [attempt, show (⟨disk, engine, []⟩ : Db fmt).planned [] = ⟨disk, engine, []⟩ from rfl,
    execute_of_ok reads]

/-- The puts of some pairs. -/
def putAll (pairs : List (Key × Bytes)) : List (Command × List Verdict) :=
  pairs.map fun pair => (.put pair.1 pair.2, [])

/-- **Puts that do not fill the memtable** are logged and applied one after the other. -/
theorem attemptAll_putAll {pairs : List (Key × Bytes)} (noFaults : db.faults = [])
    (valid : ∀ pair ∈ pairs, validateKey pair.1 = .ok () ∧ validateValue pair.2 = .ok ())
    (small : db.engine.memtable.approximateSize +
      (pairs.map fun pair => pair.1.length + pair.2.length).sum <
        db.engine.options.memtableSizeBytes) :
    ∃ wal, attemptAll (putAll pairs) db =
      .ok
        { db with
          disk := { db.disk with wal := wal }
          engine :=
            { db.engine with
              memtable := pairs.foldl (fun table pair => table.insert pair.1 (.value pair.2))
                db.engine.memtable } } := by
  induction pairs generalizing db with
  | nil => exact ⟨db.disk.wal, rfl⟩
  | cons pair rest ih =>
      obtain ⟨key, value⟩ := pair
      obtain ⟨keyValid, valueValid⟩ := valid _ List.mem_cons_self
      have grown := db.engine.memtable.approximateSize_insert_le key (.value value)
      rw [List.map_cons, List.sum_cons] at small
      have length : (Entry.value value).valueLen = value.length := rfl
      rw [length] at grown
      dsimp only at small
      have later : (db.engine.memtable.insert key (.value value)).approximateSize +
          (rest.map fun pair => pair.1.length + pair.2.length).sum <
            db.engine.options.memtableSizeBytes := by omega
      have put := attempt_put noFaults keyValid valueValid
        (lt_of_le_of_lt (Nat.le_add_right _ _) later)
      obtain ⟨wal, ran⟩ := @ih (db.written (.put key value)) noFaults
        (fun other member => valid other (List.mem_cons_of_mem _ member)) later
      refine ⟨wal, ?_⟩
      rw [putAll, List.map_cons, attemptAll, put]
      exact ran

end Unfailing

/-- Every command of a run, with its plan, meets a condition in the state it is run
in. -/
def AllAttempts (Meets : Command → List Verdict → Db fmt → Prop) :
    List (Command × List Verdict) → Db fmt → Prop
  | [], _ => True
  | (command, plan) :: rest, db =>
      Meets command plan db ∧
        ∀ after, attempt command plan db = .ok after → AllAttempts Meets rest after

theorem AllAttempts.imp {Meets Meets' : Command → List Verdict → Db fmt → Prop}
    (weaker : ∀ command plan db, Meets command plan db → Meets' command plan db)
    {attempts : List (Command × List Verdict)} {db : Db fmt}
    (all : AllAttempts Meets attempts db) : AllAttempts Meets' attempts db := by
  induction attempts generalizing db with
  | nil => trivial
  | cons pair rest ih =>
      refine ⟨weaker _ _ _ all.1, ?_⟩
      intro after attempted
      exact ih (all.2 after attempted)

/-- What is expected after a command. -/
def Command.expects (command : Command) (expected : Key → Option Bytes) : Key → Option Bytes :=
  match command.operation with
  | some operation => operation.update expected
  | none => expected

/-- The failures that are considered: those inside a flush, and those of a pass up to
the first record of its edit. -/
def Permitted : Command → List Verdict → Prop
  | .put _ _, plan | .delete _, plan => ∀ verdict ∈ plan.take 2, verdict = .done
  | .get _, _ | .flush, _ => True
  | .compact, plan | .workerPass, plan => EditWhole plan
  | .reopen, plan => plan = []

/-- A write that fills the memtable finds manifest file and memory in step and parked
entries covered. -/
def Db.Tends (db : Db fmt) (operation : Operation) : Prop :=
  (apply db.engine.memtable operation).approximateSize ≥ db.engine.options.memtableSizeBytes →
    (db.written operation).InStep ∧ (db.written operation).Covered

/-- So does a flush of a memtable that is not empty; and a pass finds manifest file and
memory in step. -/
def Tended : Command → Db fmt → Prop
  | .put key value, db => db.Tends (.put key value)
  | .delete key, db => db.Tends (.delete key)
  | .get _, _ => True
  | .flush, db => db.engine.memtable.isEmpty = false → db.InStep ∧ db.Covered
  | .compact, db => db.InStep
  | .workerPass, db => db.engine.inbox ≠ 0 → db.engine.running = true → db.InStep
  | .reopen, db => db.engine.inbox ≠ 0 → db.engine.running = true → db.InStep

section Attempts

variable {sound : fmt.Sound Fits} {clean : Prop} {expected : Key → Option Bytes}
  {db : Db fmt} {plan : List Verdict}

/-- An action keeps what is expected of a command, or it panics without room. -/
def Carries (sound : fmt.Sound Fits) (clean : Prop) (expected : Key → Option Bytes)
    (action : Action fmt Unit) (db : Db fmt) (room : Prop) : Prop :=
  Yields action db (fun _ after => Left sound clean expected after)
    (Fails sound clean expected room)

theorem Carries.attempt {command : Command} (ordinary : command ≠ .reopen)
    (carries : Carries sound clean expected command.action (db.planned plan) (Safe command db)) :
    (∃ after, LsmStore.attempt command plan db = .ok after ∧ after.faults = [] ∧
      Left sound clean expected after) ∨
    LsmStore.attempt command plan db = .error .panic ∧ ¬ Safe command db := by
  unfold LsmStore.attempt execute
  cases ran : command.action (db.planned plan) with
  | ok value after => exact .inl ⟨_, rfl, rfl, (carries.ok ran).planned []⟩
  | error failure after =>
      have fails := carries.error ran
      cases failure with
      | panic => exact .inr ⟨rfl, fails.2 rfl⟩
      | error cause =>
          refine .inl ⟨after.planned [], ?_, rfl, fails.1.planned []⟩
          dsimp only
          rw [if_neg ordinary]

/-- A write that the engine accepts. -/
theorem Left.write (left : Left sound clean expected db) {operation : Operation}
    (fits : operation.Fits) (keyed : operation.key ≠ [])
    (planned : clean → ∀ verdict ∈ plan, verdict.Clean)
    (passes : ∀ verdict ∈ plan.take 2, verdict = .done)
    (tableFits : Fits db.engine.options (apply db.engine.memtable operation).iter)
    (tends : db.Tends operation) :
    Carries sound clean (operation.update expected) (LsmStore.write operation) (db.planned plan)
      (Roomy db) := by
  have written := (left.written fits keyed).planned plan.tail.tail
  have logged : Yields (logAndApply operation) (db.planned plan)
      (fun _ mid => (db.written operation).planned plan.tail.tail = mid)
      (Fails sound clean (operation.update expected) (Roomy db)) := by
    rw [Yields, logAndApply_of_done fits passes]
    rfl
  unfold Carries
  rw [write_eq_logAndApply]
  refine logged.bind ?_
  rintro _ _ rfl
  refine Yields.bind (show Yields current _ (fun value mid =>
    (db.written operation).planned plan.tail.tail = value ∧
      (db.written operation).planned plan.tail.tail = mid) _ from ⟨rfl, rfl⟩) ?_
  rintro _ _ ⟨rfl, rfl⟩
  split
  · rename_i full
    obtain ⟨inStep, covered⟩ := tends full
    refine written.flush ?_ tableFits fun _ => ⟨inStep, covered⟩
    intro isClean verdict member
    exact planned isClean verdict (List.mem_of_mem_tail (List.mem_of_mem_tail member))
  · exact written

theorem Carries.refused {action : Action fmt Unit} {cause : Error} {room : Prop}
    (left : Left sound clean expected db) (failed : action db = .error (.error cause) db) :
    Carries sound clean expected action db room := by
  rw [Carries, Yields, failed]
  exact ⟨left, by simp⟩

/-- **What a command keeps.** -/
theorem Left.attempt (left : Left sound clean expected db) (noFaults : db.faults = [])
    {command : Command} (planned : clean → ∀ verdict ∈ plan, verdict.Clean)
    (permitted : Permitted command plan) (admitted : Admitted Fits command db)
    (tended : Tended command db) :
    (∃ after, LsmStore.attempt command plan db = .ok after ∧ after.faults = [] ∧
      Left sound clean (command.expects expected) after) ∨
    LsmStore.attempt command plan db = .error .panic ∧ ¬ Safe command db := by
  have left' := left.planned plan
  cases command with
  | put key value =>
      refine Carries.attempt (by simp) ?_
      rcases @put_cases fmt key value with
        ⟨refused, cause, failed⟩ | ⟨accepted, fits, keyed, acts⟩
      · rw [Command.expects, refused]
        exact Carries.refused left' (failed _)
      · rw [Command.expects, accepted]
        have writes := left.write fits keyed planned permitted admitted tended
        rwa [Carries, Yields, ← acts] at writes
  | delete key =>
      refine Carries.attempt (by simp) ?_
      rcases @delete_cases fmt key with
        ⟨refused, cause, failed⟩ | ⟨accepted, fits, keyed, acts⟩
      · rw [Command.expects, refused]
        exact Carries.refused left' (failed _)
      · rw [Command.expects, accepted]
        have writes := left.write fits keyed planned permitted admitted tended
        rwa [Carries, Yields, ← acts] at writes
  | get key =>
      refine Carries.attempt (by simp) ?_
      have reads := left'.get key
      change Yields (EStateM.map (Function.const _ ()) (LsmStore.get key)) _ _ _
      unfold Yields EStateM.map
      cases ran : LsmStore.get key (db.planned plan) with
      | ok value after => exact reads.ok ran
      | error failure after =>
          obtain ⟨⟨cause, rfl⟩, kept⟩ := reads.error ran
          exact ⟨kept, by simp⟩
  | flush => exact Carries.attempt (by simp) (left'.flush planned admitted tended)
  | compact =>
      exact Carries.attempt (by simp) (left'.compactOnce tended planned admitted permitted)
  | workerPass =>
      refine Carries.attempt (by simp) ?_
      obtain ⟨after, passed, kept⟩ := left'.workerPass tended planned
        ⟨admitted.1, fun _ _ => trivial⟩ permitted
      change Yields LsmStore.workerPass _ _ _
      rw [Yields, passed]
      exact kept
  | reopen =>
      obtain rfl : plan = [] := permitted
      have same : db.planned [] = db := by
        obtain ⟨disk, engine, faults⟩ := db
        obtain rfl : faults = [] := noFaults
        rfl
      obtain ⟨after, reopened, kept⟩ := left.reopen noFaults tended admitted.1
        admitted.2
      refine .inl ⟨after.planned [], ?_, rfl, kept.planned []⟩
      rw [LsmStore.attempt, same, execute_of_ok (show Command.reopen.action db = _ from reopened)]

/-- **What a run keeps.**  It comes to its end unless a step that is not safe
panics. -/
theorem Left.attemptAll {attempts : List (Command × List Verdict)}
    (left : Left sound clean expected db) (noFaults : db.faults = [])
    (planned : clean → ∀ pair ∈ attempts, ∀ verdict ∈ pair.2, verdict.Clean)
    (permitted : ∀ pair ∈ attempts, Permitted pair.1 pair.2)
    (tended : AllAttempts (fun command _ state => Admitted Fits command state ∧
      ((clean → state.InStep) → Tended command state)) attempts db) :
    (∃ final, LsmStore.attemptAll attempts db = .ok final ∧
      Left sound clean (attempts.foldl (fun map pair => pair.1.expects map) expected) final) ∨
    LsmStore.attemptAll attempts db = .error .panic ∧
      ¬ AllAttempts (fun command _ state => Safe command state) attempts db := by
  induction attempts generalizing db expected with
  | nil => exact .inl ⟨db, rfl, left⟩
  | cons pair rest ih =>
      obtain ⟨command, plan⟩ := pair
      rcases left.attempt noFaults
        (fun isClean => planned isClean (command, plan) List.mem_cons_self)
        (permitted (command, plan) List.mem_cons_self) tended.1.1 (tended.1.2 left.inStep) with
        ⟨after, attempted, noFaults', left'⟩ | ⟨panics, unsafe_⟩
      · rw [LsmStore.attemptAll, attempted, List.foldl_cons]
        rcases ih left' noFaults'
          (fun isClean other member => planned isClean other (List.mem_cons_of_mem _ member))
          (fun other member => permitted other (List.mem_cons_of_mem _ member))
          (tended.2 after attempted) with done | ⟨panics, unsafe_⟩
        · exact .inl done
        · exact .inr ⟨panics, fun safe => unsafe_ (safe.2 after attempted)⟩
      · rw [LsmStore.attemptAll, panics]
        exact .inr ⟨rfl, fun safe => unsafe_ safe.1⟩

/-- A new database keeps nothing. -/
theorem left_new (sound : fmt.Sound Fits) (clean : Prop) {options : Options}
    (positive : 1 ≤ options.maxLevels) :
    Left sound clean (reference []) (Db.new fmt options) := by
  obtain ⟨shelf, kept, aligned, whole⟩ := (new_consistent sound positive).kept
  have nothing : (Db.new fmt options).reading = reference [] :=
    funext fun key => new_refines options key
  rw [nothing] at kept
  exact ⟨shelf, kept, fun _ => ⟨aligned, whole⟩⟩

/-- What is expected of a run is what the reference map holds after its writes. -/
theorem expects_reference (attempts : List (Command × List Verdict)) (history : List Operation) :
    attempts.foldl (fun map pair => pair.1.expects map) (reference history) =
      reference (history ++ attempts.filterMap fun pair => pair.1.operation) := by
  induction attempts generalizing history with
  | nil => rw [List.filterMap_nil, List.append_nil]; rfl
  | cons pair rest ih =>
      rw [List.foldl_cons, Command.expects, List.filterMap_cons]
      cases pair.1.operation with
      | none => exact ih history
      | some operation =>
          have written : operation.update (reference history) =
              reference (history ++ [operation]) := by
            rw [reference, reference, List.foldl_append]
            rfl
          dsimp only
          rw [written, ih, List.append_assoc]
          rfl

end Attempts

end LsmStore
