import LsmStore.Crashes

/-!
# Live tables are safe

Whatever step fails and wherever the process stops, the ids of the live tables are
distinct and below the next id, each has the file that its creation left, and no
file is ever created under an id that has one (`live_tables_safe`).
-/

set_option autoImplicit false

namespace LsmStore

open Foundation

variable {fmt : TableFormat}

/-! ## What the steps keep -/

/-- Every pass still owns the inputs of its job. -/
def InputsOwned (passes : Thread → Pass fmt) : Prop :=
  ∀ thread snapshot job, (passes thread).task = some (snapshot, job) →
    ∀ input ∈ job.inputs, input ∈ snapshot.tablesNewestFirst

theorem InputsOwned.update {passes : Thread → Pass fmt} (owned : InputsOwned passes)
    {thread : Thread} {pass : Pass fmt}
    (new : ∀ snapshot job, pass.task = some (snapshot, job) →
      ∀ input ∈ job.inputs, input ∈ snapshot.tablesNewestFirst) :
    InputsOwned (Function.update passes thread pass) := by
  intro other snapshot job isTask
  by_cases same : other = thread
  · rw [same, Function.update_self] at isTask
    exact new snapshot job isTask
  · rw [Function.update_of_ne same] at isTask
    exact owned other snapshot job isTask

/-- What holds of a state at any time, whatever failed before. -/
structure Intact (state : State fmt) (contents : Contents fmt) : Prop where
  guarded : ∃ durable, Guarded state.db.disk state.db.engine.manifest contents state.slot durable
  owned : InputsOwned state.passes

namespace Intact

variable {state : State fmt} {contents : Contents fmt}

/-- An action that touches neither the manifest nor the table files. -/
theorem frame (intact : Intact state contents) {db : Db fmt}
    (bytes : db.disk.manifest = state.db.disk.manifest) (files : db.disk.sst = state.db.disk.sst)
    (memory : db.engine.manifest = state.db.engine.manifest) :
    Intact { state with db := db } contents := by
  obtain ⟨⟨durable, guarded⟩, owned⟩ := intact
  refine ⟨⟨durable, ?_⟩, owned⟩
  rw [← memory] at guarded
  exact guarded.frame bytes files

/-- The database is guarded under every plan. -/
theorem guarded_planned (intact : Intact state contents) (plan : List Verdict) :
    ∃ durable, Guarded (state.db.planned plan).disk (state.db.planned plan).engine.manifest
      contents state.slot durable :=
  intact.guarded

/-- The flush goes on to a stage with the slot of a guarded database. -/
theorem withFlush (intact : Intact state contents) {db : Db fmt} {flush : Flush fmt}
    {contents' : Contents fmt} {durable : Manifest}
    (guarded : Guarded db.disk db.engine.manifest contents'
      (Function.update state.slot none flush.slot) durable) :
    Intact { state with db := db, flush := flush } contents' :=
  ⟨⟨durable, by rw [State.slot_flush]; exact guarded⟩, intact.owned⟩

/-- A pass goes on to a stage with the slot of a guarded database. -/
theorem withPass (intact : Intact state contents) {db : Db fmt} {thread : Thread} {pass : Pass fmt}
    {contents' : Contents fmt} {durable : Manifest}
    (guarded : Guarded db.disk db.engine.manifest contents'
      (Function.update state.slot (some thread) pass.slot) durable)
    (owned : ∀ snapshot job, pass.task = some (snapshot, job) →
      ∀ input ∈ job.inputs, input ∈ snapshot.tablesNewestFirst) :
    Intact { state with db := db, passes := Function.update state.passes thread pass } contents' :=
  ⟨⟨durable, by rw [State.slot_pass]; exact guarded⟩, intact.owned.update owned⟩

theorem write (intact : Intact state contents) (plan : List Verdict)
    (operation : Option Operation) : Intact (state.attemptWrite plan operation) contents := by
  unfold State.attemptWrite
  split
  · rename_i operation _
    split
    · rename_i db done
      have same := (Leaves.logAndApply operation).ok done
      exact intact.frame same.bytes same.files same.memory
    · rename_i failure db failed
      have same := (Leaves.logAndApply operation).error failed
      exact intact.frame same.bytes same.files same.memory
  · exact intact

theorem read (intact : Intact state contents) (key : Key) :
    Intact (state.attemptRead key) contents := by
  unfold State.attemptRead
  split
  · rename_i value db done
    have same := (Leaves.get key).ok done
    exact intact.frame same.bytes same.files same.memory
  · rename_i failure db failed
    have same := (Leaves.get key).error failed
    exact intact.frame same.bytes same.files same.memory

end Intact

/-! ### Flushes -/

section Flushes

variable {state : State fmt} {contents : Contents fmt} {plan : List Verdict}

theorem State.attemptFlush_of_ok {flush : Flush fmt} {db : Db fmt}
    (done : state.flush.advance (state.db.planned plan) = .ok flush db) :
    state.attemptFlush plan = { state with db := db.planned [], flush := flush } := by
  rw [State.attemptFlush, done]

theorem State.attemptFlush_of_error {failure : Failure} {db : Db fmt}
    (failed : state.flush.advance (state.db.planned plan) = .error failure db) :
    state.attemptFlush plan = { state with db := db.planned [], flush := .idle } := by
  rw [State.attemptFlush, failed]

/-- A step that leaves tables and manifest alone and needs no slot. -/
theorem Intact.quietFlush (intact : Intact state contents) (quiet : state.flush.slot = .empty)
    (leaves : Leaves state.flush.advance)
    (stays : ∀ {db flush db'}, state.flush.advance db = .ok flush db' → flush.slot = .empty)
    (plan : List Verdict) : Intact (state.attemptFlush plan) contents := by
  obtain ⟨durable, guarded⟩ := intact.guarded
  have isSlot : state.slot none = .empty := quiet
  have next : ∀ {db : Db fmt} {flush : Flush fmt}, SameTables (state.db.planned plan) db →
      flush.slot = .empty →
      Intact { state with db := db.planned [], flush := flush } contents := by
    intro db flush same empty
    have framed := guarded.frame same.bytes same.files
    rw [← show db.engine.manifest = state.db.engine.manifest from same.memory,
      ← Function.update_eq_self none state.slot, isSlot, ← empty] at framed
    exact intact.withFlush framed
  cases ran : state.flush.advance (state.db.planned plan) with
  | ok flush db =>
      rw [State.attemptFlush_of_ok ran]
      exact next (leaves.ok ran) (stays ran)
  | error failure db =>
      rw [State.attemptFlush_of_error ran]
      exact next (leaves.error ran) rfl

/-- A step that fails gives the flush up. -/
theorem Intact.failedFlush (intact : Intact state contents) {failure : Failure} {db : Db fmt}
    (failed : state.flush.advance (state.db.planned plan) = .error failure db)
    {contents' : Contents fmt} {durable : Manifest}
    (guarded : Guarded db.disk db.engine.manifest contents'
      (Function.update state.slot none .empty) durable) :
    Intact (state.attemptFlush plan) contents' := by
  rw [State.attemptFlush_of_error failed]
  exact intact.withFlush guarded

theorem Intact.allocateFlush {snapshot : List (Key × Entry)} (intact : Intact state contents)
    (stage : state.flush = .frozen snapshot) (clean : ∀ verdict ∈ plan, verdict.Clean) :
    Intact (state.attemptFlush plan) contents := by
  obtain ⟨durable, guarded⟩ := intact.guarded_planned plan
  cases ran : nextTableId (state.db.planned plan) with
  | ok id db =>
      have done : state.flush.advance (state.db.planned plan) = .ok (.allocated snapshot id) db := by
        rw [stage]
        exact Flush.advance_frozen ran
      obtain ⟨durable', guarded'⟩ := guarded.of_nextTableId ran none
      rw [State.attemptFlush_of_ok done]
      exact intact.withFlush guarded'
  | error failure db =>
      have failed : state.flush.advance (state.db.planned plan) = .error failure db := by
        rw [stage]
        exact bind_of_error ran
      exact intact.failedFlush failed
        ((guarded.of_nextTableId_error clean ran).release none)

theorem Intact.createFlush {snapshot : List (Key × Entry)} {id : UInt64}
    (intact : Intact state contents) (stage : state.flush = .allocated snapshot id)
    (plan : List Verdict) :
    Intact (state.attemptFlush plan)
      (contents.noting (state.attemptFlush plan).db.disk.sst id) := by
  obtain ⟨durable, guarded⟩ := intact.guarded_planned plan
  have isSlot : state.slot none = .blank id := by
    rw [State.slot, stage]
    rfl
  cases ran : createTable id snapshot (state.db.planned plan) with
  | ok table db =>
      have done : state.flush.advance (state.db.planned plan) = .ok (.written snapshot table) db := by
        rw [stage]
        exact Flush.advance_allocated ran
      obtain ⟨_, guarded'⟩ := guarded.of_createTable isSlot ran
      rw [State.attemptFlush_of_ok done]
      exact intact.withFlush guarded'
  | error failure db =>
      have failed : state.flush.advance (state.db.planned plan) = .error failure db := by
        rw [stage]
        exact bind_of_error ran
      have guarded' := guarded.of_createTable_error isSlot ran
      rw [State.attemptFlush_of_error failed]
      exact intact.withFlush guarded'

theorem Intact.recordFlush {snapshot : List (Key × Entry)} {table : SsTable fmt}
    (intact : Intact state contents) (stage : state.flush = .written snapshot table)
    (clean : ∀ verdict ∈ plan, verdict.Clean) : Intact (state.attemptFlush plan) contents := by
  obtain ⟨durable, guarded⟩ := intact.guarded_planned plan
  have isSlot : state.slot none = .filled table.id := by
    rw [State.slot, stage]
    rfl
  cases ran : addTable table.id 0 (state.db.planned plan) with
  | ok _ db =>
      have done : state.flush.advance (state.db.planned plan) = .ok (.recorded snapshot table) db := by
        rw [stage]
        exact Flush.advance_written ran
      have guarded' := guarded.of_addTable isSlot ran
      rw [State.attemptFlush_of_ok done]
      exact intact.withFlush guarded'
  | error failure db =>
      have failed : state.flush.advance (state.db.planned plan) = .error failure db := by
        rw [stage]
        exact bind_of_error ran
      exact intact.failedFlush failed
        ((guarded.of_addTable_error clean ran).release none)

/-- **A step of a flush keeps a state intact**, whether it succeeds or fails. -/
theorem Intact.flush (intact : Intact state contents)
    (clean : Happening.Clean (.act .flush plan) state) :
    Intact (state.attemptFlush plan)
      ((Happening.act .flush plan).remember state (state.attemptFlush plan) contents) := by
  have quiet : ∀ created : (Happening.act .flush plan).remember state (state.attemptFlush plan)
      contents = contents, state.flush.slot = .empty → Leaves state.flush.advance →
      (∀ {db flush db'}, state.flush.advance db = .ok flush db' → flush.slot = .empty) →
      Intact (state.attemptFlush plan)
        ((Happening.act .flush plan).remember state (state.attemptFlush plan) contents) := by
    intro created empty leaves stays
    rw [created]
    exact intact.quietFlush empty leaves stays plan
  obtain ⟨db, flush, passes⟩ := state
  cases flush with
  | idle =>
      refine quiet rfl rfl ?_ ?_
      · refine Leaves.current.bind fun db => ?_
        split
        · exact Leaves.walSync.bind fun _ => Leaves.pure _
        · exact Leaves.freeze.bind fun _ => Leaves.pure _
      · intro db flush db' done
        obtain ⟨_, _, isState, done⟩ := bind_eq_ok.mp done
        cases isState
        split at done
        · obtain ⟨_, _, _, done⟩ := bind_eq_ok.mp done
          cases done
          rfl
        · obtain ⟨_, _, _, done⟩ := bind_eq_ok.mp done
          cases done
          rfl
  | frozen snapshot => exact intact.allocateFlush rfl (clean rfl)
  | allocated snapshot id => exact intact.createFlush rfl plan
  | written snapshot table => exact intact.recordFlush rfl (clean rfl)
  | recorded snapshot table =>
      refine quiet rfl rfl ((Leaves.pushFront table).bind fun _ => Leaves.pure _) ?_
      intro db flush db' done
      obtain ⟨_, _, _, done⟩ := bind_eq_ok.mp done
      cases done
      rfl
  | installed snapshot =>
      refine quiet rfl rfl (Leaves.walTruncate.bind fun _ => Leaves.pure _) ?_
      intro db flush db' done
      obtain ⟨_, _, _, done⟩ := bind_eq_ok.mp done
      cases done
      rfl
  | truncated snapshot =>
      refine quiet rfl rfl (Leaves.clearImmutable.bind fun _ => Leaves.pure _) ?_
      intro db flush db' done
      obtain ⟨_, _, _, done⟩ := bind_eq_ok.mp done
      cases done
      rfl

end Flushes

/-! ### Passes -/

section Passes

variable {state : State fmt} {contents : Contents fmt} {plan : List Verdict} {thread : Thread}

theorem State.attemptPass_of_ok {pass : Pass fmt} {db : Db fmt}
    (done : (state.passes thread).advance (state.db.planned plan) = .ok pass db) :
    state.attemptPass plan thread =
      { state with
        db := db.planned [], passes := Function.update state.passes thread pass } := by
  rw [State.attemptPass, done]

theorem State.attemptPass_of_error {failure : Failure} {db : Db fmt}
    (failed : (state.passes thread).advance (state.db.planned plan) = .error failure db) :
    state.attemptPass plan thread =
      { state with
        db := db.planned [], passes := Function.update state.passes thread .idle } := by
  rw [State.attemptPass, failed]

/-- A step that leaves tables and manifest alone and needs no slot. -/
theorem Intact.quietPass (intact : Intact state contents)
    (quiet : (state.passes thread).slot = .empty) (leaves : Leaves (state.passes thread).advance)
    (stays : ∀ {db pass db'}, (state.passes thread).advance db = .ok pass db' →
      pass.slot = .empty ∧ ∀ snapshot job, pass.task = some (snapshot, job) →
        ∀ input ∈ job.inputs, input ∈ snapshot.tablesNewestFirst)
    (plan : List Verdict) : Intact (state.attemptPass plan thread) contents := by
  obtain ⟨durable, guarded⟩ := intact.guarded
  have isSlot : state.slot (some thread) = .empty := quiet
  have next : ∀ {db : Db fmt}, SameTables (state.db.planned plan) db →
      Guarded db.disk db.engine.manifest contents
        (Function.update state.slot (some thread) .empty) durable := by
    intro db same
    have framed := guarded.frame same.bytes same.files
    rw [← show db.engine.manifest = state.db.engine.manifest from same.memory,
      ← Function.update_eq_self (some thread) state.slot, isSlot] at framed
    exact framed
  cases ran : (state.passes thread).advance (state.db.planned plan) with
  | ok pass db =>
      obtain ⟨empty, owned⟩ := stays ran
      have guarded' := next (leaves.ok ran)
      rw [← empty] at guarded'
      rw [State.attemptPass_of_ok ran]
      exact intact.withPass guarded' owned
  | error failure db =>
      have guarded' := next (leaves.error ran)
      rw [State.attemptPass_of_error ran]
      exact intact.withPass guarded' (fun _ _ isTask => nomatch isTask)

/-- A step that fails gives the pass up. -/
theorem Intact.failedPass (intact : Intact state contents) {failure : Failure} {db : Db fmt}
    (failed : (state.passes thread).advance (state.db.planned plan) = .error failure db)
    {contents' : Contents fmt} {durable : Manifest}
    (guarded : Guarded db.disk db.engine.manifest contents'
      (Function.update state.slot (some thread) .empty) durable) :
    Intact (state.attemptPass plan thread) contents' := by
  rw [State.attemptPass_of_error failed]
  exact intact.withPass guarded (fun _ _ isTask => nomatch isTask)

/-- A pass that goes on with its job still owns the inputs. -/
theorem InputsOwned.goesOn (owned : InputsOwned state.passes) {pass : Pass fmt}
    (same : pass.task = (state.passes thread).task) :
    ∀ snapshot job, pass.task = some (snapshot, job) →
      ∀ input ∈ job.inputs, input ∈ snapshot.tablesNewestFirst := by
  intro snapshot job isTask
  exact owned thread snapshot job (same.symm.trans isTask)

theorem Intact.allocatePass {snapshot : Version fmt} {job : CompactionJob fmt}
    (intact : Intact state contents) (stage : state.passes thread = .picked snapshot job)
    (clean : ∀ verdict ∈ plan, verdict.Clean) :
    Intact (state.attemptPass plan thread) contents := by
  obtain ⟨durable, guarded⟩ := intact.guarded_planned plan
  cases ran : nextTableId (state.db.planned plan) with
  | ok id db =>
      have done : (state.passes thread).advance (state.db.planned plan) =
          .ok (.allocated snapshot job id) db := by
        rw [stage]
        exact Pass.advance_picked ran
      obtain ⟨durable', guarded'⟩ := guarded.of_nextTableId ran (some thread)
      rw [State.attemptPass_of_ok done]
      exact intact.withPass guarded' (intact.owned.goesOn (by rw [stage]; rfl))
  | error failure db =>
      have failed : (state.passes thread).advance (state.db.planned plan) = .error failure db := by
        rw [stage]
        exact bind_of_error ran
      exact intact.failedPass failed
        ((guarded.of_nextTableId_error clean ran).release (some thread))

theorem Intact.createPass {snapshot : Version fmt} {job : CompactionJob fmt} {id : UInt64}
    (intact : Intact state contents) (stage : state.passes thread = .allocated snapshot job id)
    (plan : List Verdict) :
    Intact (state.attemptPass plan thread)
      (contents.noting (state.attemptPass plan thread).db.disk.sst id) := by
  obtain ⟨durable, guarded⟩ := intact.guarded_planned plan
  have isSlot : state.slot (some thread) = .blank id := by
    rw [State.slot, stage]
    rfl
  cases ran : writeOutput snapshot job id (state.db.planned plan) with
  | ok output db =>
      have done : (state.passes thread).advance (state.db.planned plan) =
          .ok (.written snapshot job output) db := by
        rw [stage]
        exact Pass.advance_allocated ran
      obtain ⟨merged, created⟩ := exists_createTable_of_writeOutput ran
      obtain ⟨_, guarded'⟩ := guarded.of_createTable isSlot created
      rw [State.attemptPass_of_ok done]
      exact intact.withPass guarded' (intact.owned.goesOn (by rw [stage]; rfl))
  | error failure db =>
      have failed : (state.passes thread).advance (state.db.planned plan) = .error failure db := by
        rw [stage]
        exact bind_of_error ran
      have guarded' : Guarded db.disk db.engine.manifest (contents.noting db.disk.sst id)
          (Function.update state.slot (some thread) .empty) durable := by
        rcases writeOutput_of_error ran with rfl | ⟨merged, uncreated⟩
        · have ok := guarded.slotted (some thread)
          rw [isSlot] at ok
          rw [Contents.noting_of_none ok.2.2]
          exact guarded.release (some thread)
        · exact guarded.of_createTable_error isSlot uncreated
      have isDisk : (state.attemptPass plan thread).db.disk = db.disk := by
        rw [State.attemptPass_of_error failed]
        rfl
      rw [isDisk]
      exact intact.failedPass failed guarded'

theorem Intact.recordPass {snapshot : Version fmt} {job : CompactionJob fmt} {output : SsTable fmt}
    (intact : Intact state contents) (stage : state.passes thread = .written snapshot job output)
    (clean : ∀ verdict ∈ plan, verdict.Clean) :
    Intact (state.attemptPass plan thread) contents := by
  obtain ⟨durable, guarded⟩ := intact.guarded_planned plan
  have isSlot : state.slot (some thread) = .filled output.id := by
    rw [State.slot, stage]
    rfl
  cases ran : recordCompaction output.id job (state.db.planned plan) with
  | ok _ db =>
      have done : (state.passes thread).advance (state.db.planned plan) =
          .ok (.recorded snapshot job output) db := by
        rw [stage]
        exact Pass.advance_written ran
      obtain ⟨durable', guarded'⟩ := guarded.of_recordCompaction isSlot ran
      rw [State.attemptPass_of_ok done]
      exact intact.withPass guarded' (intact.owned.goesOn (by rw [stage]; rfl))
  | error failure db =>
      have failed : (state.passes thread).advance (state.db.planned plan) = .error failure db := by
        rw [stage]
        exact bind_of_error ran
      obtain ⟨durable', guarded'⟩ := guarded.of_recordCompaction_error clean isSlot ran
      exact intact.failedPass failed guarded'

/-- **A step of a pass keeps a state intact**, whether it succeeds or fails. -/
theorem Intact.pass (intact : Intact state contents)
    (clean : Happening.Clean (.act (.pass thread) plan) state) :
    Intact (state.attemptPass plan thread)
      ((Happening.act (.pass thread) plan).remember state (state.attemptPass plan thread)
        contents) := by
  have created : ∀ {id : Option UInt64}, (Event.pass thread).creates state = id →
      (Happening.act (.pass thread) plan).remember state (state.attemptPass plan thread) contents =
        id.elim contents (contents.noting (state.attemptPass plan thread).db.disk.sst) := by
    rintro id rfl
    unfold Happening.remember
    dsimp only
    cases (Event.pass thread).creates state <;> rfl
  have appends : ∀ {pass : Pass fmt}, state.passes thread = pass → pass.appends = true →
      ∀ verdict ∈ plan, verdict.Clean := by
    rintro pass rfl appends
    exact clean appends
  cases stage : state.passes thread with
  | idle =>
      rw [created (show (Event.pass thread).creates state = none by rw [Event.creates, stage])]
      refine intact.quietPass (by rw [stage]; rfl) ?_ ?_ plan
      · rw [stage]
        refine Leaves.current.bind fun db => ?_
        split
        · exact Leaves.throw _
        · exact Leaves.pure _
        · exact Leaves.pure _
      · rw [stage]
        intro db pass db' done
        cases picked : pickCompaction db.engine.version db.engine.options with
        | error failure =>
            rw [Pass.advance_idle_of_pick _ picked] at done
            cases done
        | ok choice =>
            rw [Pass.advance_idle picked] at done
            cases done
            cases choice with
            | none => exact ⟨rfl, fun _ _ isTask => by cases isTask⟩
            | some job =>
                refine ⟨rfl, ?_⟩
                rintro snapshot job' ⟨⟩
                exact inputs_mem_of_pick picked
  | picked snapshot job =>
      rw [created (show (Event.pass thread).creates state = none by rw [Event.creates, stage])]
      exact intact.allocatePass stage (appends stage rfl)
  | allocated snapshot job id =>
      rw [created (show (Event.pass thread).creates state = some id by rw [Event.creates, stage])]
      exact intact.createPass stage plan
  | written snapshot job output =>
      rw [created (show (Event.pass thread).creates state = none by rw [Event.creates, stage])]
      exact intact.recordPass stage (appends stage rfl)
  | recorded snapshot job output =>
      rw [created (show (Event.pass thread).creates state = none by rw [Event.creates, stage])]
      have owned := intact.owned thread snapshot job (by rw [stage]; rfl)
      refine intact.quietPass (by rw [stage]; rfl) ?_ ?_ plan
      · rw [stage]
        exact (Leaves.installCompaction job output).bind fun _ =>
          (Leaves.removeInputs owned).bind fun _ => Leaves.pure _
      · rw [stage]
        intro db pass db' done
        obtain ⟨_, _, _, done⟩ := bind_eq_ok.mp done
        obtain ⟨_, _, _, done⟩ := bind_eq_ok.mp done
        cases done
        exact ⟨rfl, fun _ _ isTask => nomatch isTask⟩

end Passes

/-! ## Whole runs -/

/-- A directory with nothing under way, opened. -/
theorem Guarded.opened {disk : Disk fmt} {memory : Manifest} {contents : Contents fmt}
    {slots : Owner → Slot} {durable : Manifest}
    (guarded : Guarded disk memory contents slots durable) :
    Guarded disk durable contents (fun _ => .empty) durable :=
  { guarded with
    tables := rfl
    behind := le_refl _
    slotted := fun _ => trivial
    apart := fun _ _ _ isId => nomatch isId }

theorem Guarded.recover_eq {disk : Disk fmt} {memory : Manifest} {contents : Contents fmt}
    {slots : Owner → Slot} {durable : Manifest}
    (guarded : Guarded disk memory contents slots durable) :
    Manifest.recover disk.manifest = .ok durable := by
  obtain ⟨records, isLog, replayed⟩ := guarded.recorded
  rw [isLog, ← List.append_nil (manifestLog records), Manifest.recover_log records (by decide)]
  exact replayed

theorem manifest_of_openWith {options : Options} {disk : Disk fmt} {engine : Engine fmt}
    (opened : openWith options disk = .ok engine) :
    Manifest.recover disk.manifest = .ok engine.manifest := by
  unfold openWith at opened
  split at opened
  · cases opened
  · rename_i manifest recovered
    split at opened
    · cases opened
    · split at opened <;> cases opened
      exact recovered

theorem State.slot_start (db : Db fmt) : (State.start db).slot = fun _ => .empty := by
  funext owner
  cases owner <;> rfl

theorem inputsOwned_start (db : Db fmt) : InputsOwned (State.start db).passes :=
  fun _ _ _ isTask => nomatch isTask

theorem Intact.crash {state : State fmt} {contents : Contents fmt}
    (intact : Intact state contents) {options : Options} {engine : Engine fmt}
    (opened : openWith options state.db.disk = .ok engine) :
    Intact (State.start ⟨state.db.disk, engine, []⟩) contents := by
  obtain ⟨durable, guarded⟩ := intact.guarded
  have recovered := manifest_of_openWith opened
  rw [guarded.recover_eq] at recovered
  refine ⟨⟨durable, ?_⟩, inputsOwned_start _⟩
  rw [State.slot_start, show (State.start ⟨state.db.disk, engine, []⟩).db.engine.manifest = durable
    from (Except.ok.inj recovered).symm]
  exact guarded.opened

/-- **Whatever happens keeps a state intact.** -/
theorem Intact.step {state next : State fmt} {contents : Contents fmt} {happening : Happening}
    (intact : Intact state contents) (clean : happening.Clean state)
    (stepped : happening.step state = some next) :
    Intact next (happening.remember state next contents) := by
  cases happening with
  | crash options =>
      rw [Happening.step] at stepped
      split at stepped
      · rename_i engine opened
        cases stepped
        exact intact.crash opened
      · cases stepped
  | act event plan =>
      cases stepped
      cases event with
      | put key value => exact intact.write plan _
      | delete key => exact intact.write plan _
      | get key => exact intact.read key
      | flush => exact intact.flush clean
      | pass thread => exact intact.pass clean

theorem Intact.survive {happenings : List Happening} {state final : State fmt}
    {contents contents' : Contents fmt} (intact : Intact state contents)
    (clean : AllClean happenings state)
    (survived : survive happenings (state, contents) = some (final, contents')) :
    Intact final contents' := by
  induction happenings generalizing state contents with
  | nil =>
      cases survived
      exact intact
  | cons happening rest ih =>
      obtain ⟨clean, cleanRest⟩ := clean
      rw [LsmStore.survive] at survived
      cases stepped : happening.step state with
      | none =>
          rw [stepped] at survived
          cases survived
      | some next =>
          rw [stepped] at survived cleanRest
          exact ih (intact.step clean stepped) cleanRest survived

theorem intact_new {options : Options} {start : Db fmt} (opened : openNew fmt options = .ok start) :
    Intact (State.start start) fun _ => none := by
  unfold openNew at opened
  split at opened
  · cases opened
  · rename_i engine isOpen
    cases opened
    have empty : Guarded (Disk.empty fmt) .initial (fun _ => none) (fun _ => .empty) .initial :=
      { recorded := ⟨[], rfl, rfl⟩
        tables := rfl
        behind := le_refl _
        distinct := List.nodup_nil
        stored := fun _ listed => nomatch listed
        used := fun _ isUsed => absurd rfl isUsed
        slotted := fun _ => trivial
        apart := fun _ _ _ isId => nomatch isId }
    have idle : Intact (State.start ⟨Disk.empty fmt, { engine with manifest := .initial }, []⟩)
        fun _ => none := by
      refine ⟨⟨.initial, ?_⟩, inputsOwned_start _⟩
      rw [State.slot_start]
      exact empty
    exact idle.crash isOpen

/-- **The files of live tables are safe.**  Let the steps of flushes and of passes
of both threads come in any order, let any of them fail, except that an append to
the manifest that fails writes nothing, and let the process stop and start again
any number of times.  In every state that is reached, the manifest that the file
holds lists distinct ids below its next id; each of them has its completed file,
with the contents it was created with; and a table whose file is about to be
created has an id that no file bears and that is not listed. -/
theorem live_tables_safe {options : Options} {start : Db fmt}
    (opened : openNew fmt options = .ok start) {happenings : List Happening}
    (clean : AllClean happenings (State.start start)) {state : State fmt}
    {contents : Contents fmt}
    (survived : survive happenings (State.start start, fun _ => none) = some (state, contents)) :
    ∃ live, Manifest.recover state.db.disk.manifest = .ok live ∧ live.ids.Nodup ∧
      (∀ id ∈ live.ids, id < live.nextTableId ∧
        ∃ file, state.db.disk.sst id = some file ∧ contents id = some file) ∧
      ∀ event id, Event.creates event state = some id →
        state.db.disk.sst id = none ∧ id ∉ live.ids := by
  have intact := (intact_new opened).survive clean survived
  obtain ⟨live, guarded⟩ := intact.guarded
  refine ⟨live, guarded.recover_eq, guarded.distinct, ?_, ?_⟩
  · intro id listed
    obtain ⟨file, present, remembered⟩ := guarded.stored id listed
    refine ⟨?_, file, present, remembered⟩
    rw [UInt64.lt_iff_toNat_lt]
    exact guarded.used id (by rw [present]; exact Option.some_ne_none file)
  · intro event id created
    have blank : ∀ owner, state.slot owner = .blank id →
        state.db.disk.sst id = none ∧ id ∉ live.ids := by
      intro owner isSlot
      have ok := guarded.slotted owner
      rw [isSlot] at ok
      exact ⟨ok.2.2, ok.2.1⟩
    cases event with
    | put key value => cases created
    | delete key => cases created
    | get key => cases created
    | flush =>
        refine blank none ?_
        rw [Event.creates] at created
        rw [State.slot]
        split at created
        · rename_i stage
          cases created
          rw [stage]
          rfl
        · cases created
    | pass thread =>
        refine blank (some thread) ?_
        rw [Event.creates] at created
        rw [State.slot]
        split at created
        · rename_i stage
          cases created
          rw [stage]
          rfl
        · cases created

/-- A flush that fails to allocate its id, a crash, a flush whose table is renamed but
reported as failed, another crash, and a flush up to its record. -/
def roughRun : List Happening :=
  [.act (.put [97] [49]) [], .act .flush [], .act .flush [.fail 0], .crash (eagerOptions 2),
    .act .flush [], .act .flush [], .act .flush [.fail 2], .crash (eagerOptions 2),
    .act .flush [], .act .flush [], .act .flush [], .act .flush []]

/-- After the rough run the second table is live, and has its file. -/
theorem live_tables_safe_rough :
    ∃ (start : Db smallTables) (state : State smallTables) (contents : Contents smallTables),
      openNew smallTables (eagerOptions 2) = .ok start ∧
      survive roughRun (State.start start, fun _ => none) = some (state, contents) ∧
      ∃ live, Manifest.recover state.db.disk.manifest = .ok live ∧ live.ids = [2] ∧
        ∃ file, state.db.disk.sst 2 = some file ∧ contents 2 = some file := by
  have opened := openNew_eq smallTables (eagerOptions 2)
  have recovers : (survive roughRun (State.start (Db.new smallTables (eagerOptions 2)),
      fun _ => none)).map (fun reached => Manifest.recover reached.1.db.disk.manifest) =
        some (.ok ⟨3, [(2, 0)]⟩) := by
    decide +kernel
  obtain ⟨⟨state, contents⟩, survived, recovered⟩ := Option.map_eq_some_iff.mp recovers
  obtain ⟨live, isLive, _, stored, _⟩ := live_tables_safe opened (by decide +kernel) survived
  have ids : live.ids = [2] := by
    rw [Except.ok.inj (isLive.symm.trans recovered)]
    rfl
  exact ⟨_, state, contents, opened, survived, live, isLive, ids,
    (stored 2 (by rw [ids]; exact List.mem_singleton_self 2)).2⟩

end LsmStore
