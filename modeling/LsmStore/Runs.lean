import LsmStore.Steps

/-!
# Runs

Every command on a consistent database is a sequence of steps, or it panics
(`execute_steps`).  So whatever every step preserves holds in every state that a
run reaches (`run_steps`).

Two things are asked of a run: the tables it writes are ones the format can hold
(`Admitted`), and whenever the directory is reopened, the number of every
non-empty level survives the cut to 32 bits that the manifest makes
(`LevelsFit`).  A command can only panic when no table id is left, or when the
sizes that the compaction picker adds up and multiplies exceed 64 bits (`Safe`).
-/

set_option autoImplicit false

namespace LsmStore

open Foundation Relation

variable {fmt : TableFormat} {Fits : Options → List (Key × Entry) → Prop}

/-! ## The ghost of a run -/

/-- The write of a command, if the engine accepts it. -/
def Command.operation : Command → Option Operation
  | .put key value =>
      match validateKey key, validateValue value with
      | .ok (), .ok () => some (.put key value)
      | _, _ => none
  | .delete key =>
      match validateKey key with
      | .ok () => some (.delete key)
      | .error _ => none
  | _ => none

namespace Ghost

def flush (ghost : Ghost) (db : Db fmt) : Ghost :=
  if db.engine.memtable.isEmpty then ghost else ghost.flushed db

def write (ghost : Ghost) (db : Db fmt) (operation : Operation) : Ghost :=
  if (db.written operation).engine.memtable.approximateSize ≥
      db.engine.options.memtableSizeBytes then
    (ghost.written operation).flush (db.written operation)
  else ghost.written operation

def compact (ghost : Ghost) (db : Db fmt) : Ghost :=
  match pickCompaction db.engine.version db.engine.options with
  | .ok (some job) =>
      if db.engine.manifest.nextTableId.toNat + 1 > u64Max then ghost
      else ghost.compacted db job
  | _ => ghost

def workerPass (ghost : Ghost) (db : Db fmt) : Ghost :=
  if db.engine.inbox = 0 ∨ db.engine.running = false then ghost else ghost.compact db

def drain : Nat → Db fmt → Ghost → Ghost
  | 0, _, ghost => ghost
  | requests + 1, db, ghost =>
      match LsmStore.workerPass db with
      | .ok () next => drain requests next (ghost.workerPass db)
      | .error _ _ => ghost

/-- The ghost after a command. -/
def after (ghost : Ghost) (command : Command) (db : Db fmt) : Ghost :=
  match command with
  | .put _ _ | .delete _ =>
      match command.operation with
      | some operation => ghost.write db operation
      | none => ghost
  | .get _ => ghost
  | .flush => ghost.flush db
  | .compact => ghost.compact db
  | .workerPass => ghost.workerPass db
  | .reopen => drain db.engine.inbox db ghost

/-- The ghost after a list of commands. -/
def afterAll : List Command → Db fmt → Ghost → Ghost
  | [], _, ghost => ghost
  | command :: rest, db, ghost =>
      match execute command db with
      | .ok next => afterAll rest next (ghost.after command db)
      | .error _ => ghost

theorem history_flush (ghost : Ghost) (db : Db fmt) :
    (ghost.flush db).history = ghost.history := by
  unfold flush
  split <;> rfl

theorem history_write (ghost : Ghost) (db : Db fmt) (operation : Operation) :
    (ghost.write db operation).history = ghost.history ++ [operation] := by
  unfold write
  split
  · exact history_flush _ _
  · rfl

theorem history_compact (ghost : Ghost) (db : Db fmt) :
    (ghost.compact db).history = ghost.history := by
  unfold compact
  split
  · split <;> rfl
  · rfl

theorem history_workerPass (ghost : Ghost) (db : Db fmt) :
    (ghost.workerPass db).history = ghost.history := by
  unfold workerPass
  split
  · rfl
  · exact history_compact ghost db

theorem history_drain (requests : Nat) (db : Db fmt) (ghost : Ghost) :
    (drain requests db ghost).history = ghost.history := by
  induction requests generalizing db ghost with
  | zero => rfl
  | succ requests ih =>
      rw [drain]
      split
      · exact (ih _ _).trans (history_workerPass ghost db)
      · rfl

/-- A command adds its accepted write to the history. -/
theorem history_after (ghost : Ghost) (command : Command) (db : Db fmt) :
    (ghost.after command db).history = ghost.history ++ command.operation.toList := by
  cases command with
  | put key value =>
      unfold after
      cases (Command.put key value).operation with
      | some operation => exact history_write ghost db operation
      | none => exact (List.append_nil _).symm
  | delete key =>
      unfold after
      cases (Command.delete key).operation with
      | some operation => exact history_write ghost db operation
      | none => exact (List.append_nil _).symm
  | get key => exact (List.append_nil _).symm
  | flush => exact (history_flush ghost db).trans (List.append_nil _).symm
  | compact => exact (history_compact ghost db).trans (List.append_nil _).symm
  | workerPass => exact (history_workerPass ghost db).trans (List.append_nil _).symm
  | reopen => exact (history_drain _ db ghost).trans (List.append_nil _).symm

end Ghost

/-! ## Conditions on a run -/

/-- The output of a compaction picked now is one the format can hold. -/
def CompactionFits (Fits : Options → List (Key × Entry) → Prop) (db : Db fmt) : Prop :=
  ∀ job, pickCompaction db.engine.version db.engine.options = .ok (some job) →
    Fits db.engine.options (mergedEntries db.disk.sst job (db.drops job))

/-- So are the outputs of the passes that the worker still has to run. -/
def DrainFits (Fits : Options → List (Key × Entry) → Prop) : Nat → Db fmt → Prop
  | 0, _ => True
  | requests + 1, db =>
      (db.engine.inbox ≠ 0 → db.engine.running = true →
        CompactionFits Fits
          { db with engine := { db.engine with inbox := db.engine.inbox - 1 } }) ∧
        ∀ next, workerPass db = .ok () next → DrainFits Fits requests next

/-- Once the worker has finished, the number of every non-empty level fits into
32 bits. -/
def ReopenFits (db : Db fmt) : Prop :=
  ∀ next, shutdown db = .ok () next → LevelsFit next.engine.version

/-- The tables a command writes are ones the format can hold, and a reopening
finds only levels that fit. -/
def Admitted (Fits : Options → List (Key × Entry) → Prop) : Command → Db fmt → Prop
  | .put key value, db => Fits db.engine.options (apply db.engine.memtable (.put key value)).iter
  | .delete key, db => Fits db.engine.options (apply db.engine.memtable (.delete key)).iter
  | .get _, _ => True
  | .flush, db => Fits db.engine.options db.engine.memtable.iter
  | .compact, db => CompactionFits Fits db
  | .workerPass, db => DrainFits Fits 1 db
  | .reopen, db => DrainFits Fits db.engine.inbox db ∧ ReopenFits db

/-- Another table id is left. -/
def Roomy (db : Db fmt) : Prop := db.engine.manifest.nextTableId.toNat + 1 ≤ u64Max

/-- The command does not panic. -/
def Safe : Command → Db fmt → Prop
  | .put _ _, db | .delete _, db | .flush, db => Roomy db
  | .compact, db =>
      Roomy db ∧ pickCompaction db.engine.version db.engine.options ≠ .error .panic
  | .get _, _ | .workerPass, _ | .reopen, _ => True

/-- Every command of a run meets a condition in the state it is run in. -/
def AllSteps (Meets : Command → Db fmt → Prop) : List Command → Db fmt → Prop
  | [], _ => True
  | command :: rest, db =>
      Meets command db ∧ ∀ next, execute command db = .ok next → AllSteps Meets rest next

theorem AllSteps.imp {Meets Meets' : Command → Db fmt → Prop}
    (weaker : ∀ command db, Meets command db → Meets' command db) {commands : List Command}
    {db : Db fmt} (all : AllSteps Meets commands db) : AllSteps Meets' commands db := by
  induction commands generalizing db with
  | nil => trivial
  | cons command rest ih =>
      refine ⟨weaker command db all.1, ?_⟩
      intro next executed
      exact ih (all.2 next executed)

/-! ### The conditions can be evaluated -/

section Evaluating

theorem levelsFit_iff {version : Version fmt} :
    LevelsFit version ↔ ∀ tables ∈ version.levels.drop (2 ^ 32), tables.isEmpty = true := by
  constructor
  · intro fit tables member
    obtain ⟨depth, found⟩ := List.mem_iff_getElem?.mp member
    rw [List.getElem?_drop] at found
    have nothing := fit (2 ^ 32 + depth) (Nat.le_add_right _ _)
    rw [Version.level, found] at nothing
    exact List.isEmpty_iff.mpr nothing
  · intro empty depth beyond
    unfold Version.level
    cases found : version.levels[depth]? with
    | none => rfl
    | some tables =>
        refine List.isEmpty_iff.mp (empty tables (List.mem_iff_getElem?.mpr ⟨depth - 2 ^ 32, ?_⟩))
        rw [List.getElem?_drop, Nat.add_sub_cancel' beyond, found]

instance (version : Version fmt) : Decidable (LevelsFit version) :=
  decidable_of_iff _ levelsFit_iff.symm

instance (db : Db fmt) : Decidable (Roomy db) := inferInstanceAs (Decidable (_ ≤ _))

variable [∀ options entries, Decidable (Fits options entries)]

instance (db : Db fmt) : Decidable (CompactionFits Fits db) :=
  match picked : pickCompaction db.engine.version db.engine.options with
  | .ok (some job) =>
      decidable_of_iff (Fits db.engine.options (mergedEntries db.disk.sst job (db.drops job)))
        ⟨fun fits other same => by rw [picked] at same; cases same; exact fits,
          fun fits => fits job picked⟩
  | .ok none | .error _ => isTrue fun _ same => by rw [picked] at same; cases same

instance decidableDrainFits : ∀ (requests : Nat) (db : Db fmt),
    Decidable (DrainFits Fits requests db)
  | 0, _ => isTrue trivial
  | requests + 1, db =>
      have : Decidable (∀ next, workerPass db = .ok () next → DrainFits Fits requests next) :=
        match ran : workerPass db with
        | .ok () next =>
            have := decidableDrainFits requests next
            decidable_of_iff (DrainFits Fits requests next)
              ⟨fun fits other same => by cases same; exact fits, fun fits => fits next rfl⟩
        | .error _ _ => isTrue fun _ same => by cases same
      inferInstanceAs (Decidable (_ ∧ _))

instance (db : Db fmt) : Decidable (ReopenFits db) :=
  match ran : shutdown db with
  | .ok () next =>
      decidable_of_iff (LevelsFit next.engine.version)
        ⟨fun fit other same => by rw [ran] at same; cases same; exact fit, fun fit => fit next ran⟩
  | .error _ _ => isTrue fun _ same => by rw [ran] at same; cases same

instance decidableAdmitted : ∀ (command : Command) (db : Db fmt),
    Decidable (Admitted Fits command db)
  | .put key value, db => inferInstanceAs (Decidable (Fits db.engine.options
      (apply db.engine.memtable (.put key value)).iter))
  | .delete key, db => inferInstanceAs (Decidable (Fits db.engine.options
      (apply db.engine.memtable (.delete key)).iter))
  | .get _, _ => isTrue trivial
  | .flush, db => inferInstanceAs (Decidable (Fits db.engine.options db.engine.memtable.iter))
  | .compact, db => inferInstanceAs (Decidable (CompactionFits Fits db))
  | .workerPass, db => inferInstanceAs (Decidable (DrainFits Fits 1 db))
  | .reopen, db => inferInstanceAs (Decidable (DrainFits Fits db.engine.inbox db ∧ ReopenFits db))

instance decidableAllSteps (Meets : Command → Db fmt → Prop)
    [∀ command db, Decidable (Meets command db)] :
    ∀ (commands : List Command) (db : Db fmt), Decidable (AllSteps Meets commands db)
  | [], _ => isTrue trivial
  | command :: rest, db =>
      have : Decidable (∀ next, execute command db = .ok next → AllSteps Meets rest next) :=
        match execute command db with
        | .ok next =>
            have := decidableAllSteps Meets rest next
            decidable_of_iff (AllSteps Meets rest next)
              ⟨fun all other same => by cases same; exact all, fun all => all next rfl⟩
        | .error _ => isTrue fun _ same => by cases same
      inferInstanceAs (Decidable (_ ∧ _))

end Evaluating

/-! ## Actions are sequences of steps -/

/-- The action ends with a sequence of steps, or it is not safe and panics. -/
def Ends (sound : fmt.Sound Fits) (action : Action fmt Unit) (db : Db fmt) (ghost ghost' : Ghost)
    (safe : Prop) : Prop :=
  (∃ next, action db = .ok () next ∧ ReflTransGen (Step sound) (db, ghost) (next, ghost')) ∨
    ¬ safe ∧ ∃ next, action db = .error .panic next

section Actions

variable {sound : fmt.Sound Fits} {db : Db fmt}

theorem nextTableId_panic (full : ¬ Roomy db) : nextTableId db = .error .panic db := by
  unfold nextTableId
  refine (bind_of_ok (show current db = .ok db db from rfl)).trans ?_
  dsimp only
  rw [if_pos (Nat.lt_of_not_le full)]
  rfl

/-- Flushing a non-empty memtable. -/
theorem flushMemtable_noFaults {disk : Disk fmt} {engine : Engine fmt} {file : fmt.File}
    {handle : fmt.Handle} {version : Version fmt} (nonempty : engine.memtable.isEmpty = false)
    (room : engine.manifest.nextTableId.toNat + 1 ≤ u64Max)
    (created : fmt.create engine.options engine.memtable.iter = .ok (file, handle))
    (unlisted : engine.manifest.lists engine.manifest.nextTableId = false)
    (pushed : engine.version.pushFront ⟨engine.manifest.nextTableId, handle⟩ = .ok version) :
    flushMemtable ⟨disk, engine, []⟩ =
      .ok () ((⟨disk, engine, []⟩ : Db fmt).flushed file version) := by
  refine bind_eq_ok.mpr ⟨_, _, rfl, ?_⟩
  dsimp only
  rw [if_neg (by simp [nonempty])]
  refine bind_eq_ok.mpr ⟨engine.memtable.iter, _, rfl, ?_⟩
  refine bind_eq_ok.mpr ⟨_, _, nextTableId_noFaults room, ?_⟩
  refine bind_eq_ok.mpr ⟨_, _, createTable_noFaults created, ?_⟩
  refine bind_eq_ok.mpr ⟨_, _, addTable_noFaults unlisted, ?_⟩
  refine bind_eq_ok.mpr ⟨(),
    ⟨{ disk.withTable engine.manifest.nextTableId file with
        manifest := disk.manifest ++ manifestLog (flushRecords engine.manifest.nextTableId) },
      { engine with
        memtable := MemTable.new
        immutable := some (MemTable.ofRun engine.memtable.iter)
        version := version
        manifest := engine.manifest.allocated.added engine.manifest.nextTableId 0 }, []⟩, ?_, rfl⟩
  unfold pushFront
  dsimp only
  rw [pushed]
  simp [manifestLog, flushRecords, Disk.withTable]

theorem flushMemtable_ends (consistent : Consistent sound db)
    (fits : Fits db.engine.options db.engine.memtable.iter) (ghost : Ghost) :
    Ends sound flushMemtable db ghost (ghost.flush db) (Roomy db) := by
  obtain ⟨disk, engine, faults⟩ := db
  obtain rfl : faults = [] := consistent.noFaults
  by_cases empty : engine.memtable.isEmpty = true
  · refine .inl ⟨⟨disk, engine, []⟩, ?_, ?_⟩
    · refine bind_eq_ok.mpr ⟨_, _, rfl, ?_⟩
      dsimp only
      rw [if_pos empty]
      rfl
    · have same : ghost.flush (⟨disk, engine, []⟩ : Db fmt) = ghost := if_pos empty
      rw [same]
  have nonempty : engine.memtable.isEmpty = false := by simpa using empty
  by_cases room : Roomy (⟨disk, engine, []⟩ : Db fmt)
  · obtain ⟨file, handle, created, _⟩ := sound.create_ok consistent.validRun fits
    have levels : engine.version.levels ≠ [] := by
      intro none_
      have depth : engine.version.levels.length = engine.options.maxLevels := consistent.depth
      have positive : 1 ≤ engine.options.maxLevels := consistent.positive
      rw [none_, List.length_nil] at depth
      omega
    obtain ⟨version, pushed⟩ := pushFront_ok levels ⟨engine.manifest.nextTableId, handle⟩
    refine .inl ⟨_, flushMemtable_noFaults nonempty room created consistent.unlisted pushed, ?_⟩
    have ghostEq : ghost.flush (⟨disk, engine, []⟩ : Db fmt) =
        ghost.flushed (⟨disk, engine, []⟩ : Db fmt) := if_neg empty
    rw [ghostEq]
    exact ReflTransGen.single (Step.flush room fits created pushed)
  · refine .inr ⟨room, ⟨disk,
      { engine with
        memtable := MemTable.new
        immutable := some (MemTable.ofRun engine.memtable.iter) }, []⟩, ?_⟩
    refine (bind_of_ok (show current (⟨disk, engine, []⟩ : Db fmt) = .ok _ _ from rfl)).trans ?_
    dsimp only
    rw [if_neg empty]
    refine (bind_of_ok (show freeze (⟨disk, engine, []⟩ : Db fmt) = .ok _ _ from rfl)).trans ?_
    exact bind_of_error (nextTableId_panic room)

/-- A step that only changes bookkeeping, outside the cache. -/
theorem Step.bookkeeping (consistent : Consistent sound db) (ghost : Ghost)
    (lastError : Option String) (inbox : Nat) (running : Bool) :
    Step sound (db, ghost)
      ({ db with
          engine :=
            { db.engine with lastError := lastError, inbox := inbox, running := running } },
        ghost) :=
  Step.note db.engine.cache lastError db.engine.bloomSkips db.engine.sstableReads inbox running
    consistent.coherent

theorem steps_consistent {before after : Db fmt × Ghost}
    (steps : ReflTransGen (Step sound) before after) (consistent : Consistent sound before.1) :
    Consistent sound after.1 := by
  induction steps with
  | refl => exact consistent
  | tail _ step ih => exact step.consistent ih

theorem steps_refines {before after : Db fmt × Ghost}
    (steps : ReflTransGen (Step sound) before after) (consistent : Consistent sound before.1)
    (refines : Refines before) : Refines after := by
  induction steps with
  | refl => exact refines
  | tail earlier step ih => exact step.refines (steps_consistent earlier consistent) ih

theorem steps_options {before after : Db fmt × Ghost}
    (steps : ReflTransGen (Step sound) before after) :
    after.1.engine.options = before.1.engine.options := by
  induction steps with
  | refl => rfl
  | tail _ step ih => exact step.options_eq.trans ih

theorem flush_ends (consistent : Consistent sound db)
    (fits : Fits db.engine.options db.engine.memtable.iter) (ghost : Ghost) :
    Ends sound flush db ghost (ghost.flush db) (Roomy db) := by
  rcases flushMemtable_ends consistent fits ghost with ⟨next, done, steps⟩ | ⟨full, next, failed⟩
  · have consistent' := steps_consistent steps consistent
    by_cases request : (next.engine.version.level 0).length ≥
        next.engine.options.l0CompactionTrigger ∧ next.engine.running = true
    · refine .inl ⟨_, bind_eq_ok.mpr ⟨(), next, done, if_pos request⟩, ?_⟩
      exact steps.tail (Step.bookkeeping consistent' _ next.engine.lastError
        (next.engine.inbox + 1) next.engine.running)
    · exact .inl ⟨_, bind_eq_ok.mpr ⟨(), next, done, if_neg request⟩, steps⟩
  · exact .inr ⟨full, next, bind_of_error failed⟩

/-- Logging, syncing and applying a write. -/
theorem write_eq {operation : Operation} {disk : Disk fmt} {engine : Engine fmt}
    (fits : operation.Fits) :
    write operation ⟨disk, engine, []⟩ =
      (if (apply engine.memtable operation).approximateSize ≥ engine.options.memtableSizeBytes
        then flush else pure ()) ((⟨disk, engine, []⟩ : Db fmt).written operation) :=
  bind_of_ok (walAppend_noFaults fits disk engine)

theorem write_ends (consistent : Consistent sound db) {operation : Operation}
    (opFits : operation.Fits) (keyed : operation.key ≠ [])
    (fits : Fits db.engine.options (apply db.engine.memtable operation).iter) (ghost : Ghost) :
    Ends sound (write operation) db ghost (ghost.write db operation) (Roomy db) := by
  obtain ⟨disk, engine, faults⟩ := db
  obtain rfl : faults = [] := consistent.noFaults
  have step : Step sound ((⟨disk, engine, []⟩ : Db fmt), ghost)
      ((⟨disk, engine, []⟩ : Db fmt).written operation, ghost.written operation) :=
    Step.write operation opFits keyed
  have written := @write_eq fmt operation disk engine opFits
  by_cases big : (apply engine.memtable operation).approximateSize ≥
      engine.options.memtableSizeBytes
  · rw [if_pos big] at written
    have ghostEq : ghost.write (⟨disk, engine, []⟩ : Db fmt) operation =
        (ghost.written operation).flush ((⟨disk, engine, []⟩ : Db fmt).written operation) :=
      if_pos big
    rw [ghostEq]
    rcases flush_ends (step.consistent consistent) fits (ghost.written operation) with
      ⟨next, done, steps⟩ | ⟨full, next, failed⟩
    · exact .inl ⟨next, written.trans done, ReflTransGen.head step steps⟩
    · exact .inr ⟨full, next, written.trans failed⟩
  · rw [if_neg big] at written
    have ghostEq : ghost.write (⟨disk, engine, []⟩ : Db fmt) operation = ghost.written operation :=
      if_neg big
    rw [ghostEq]
    exact .inl ⟨_, written, ReflTransGen.single step⟩

/-- A pass on a consistent database; a panic leaves it as it was. -/
theorem compactOnce_ends (consistent : Consistent sound db) (fits : CompactionFits Fits db)
    (ghost : Ghost) :
    (∃ next, compactOnce db = .ok () next ∧
      ReflTransGen (Step sound) (db, ghost) (next, ghost.compact db)) ∨
    ¬ (Roomy db ∧ pickCompaction db.engine.version db.engine.options ≠ .error .panic) ∧
      compactOnce db = .error .panic db ∧ ghost.compact db = ghost := by
  obtain ⟨disk, engine, faults⟩ := db
  obtain rfl : faults = [] := consistent.noFaults
  cases picked : pickCompaction engine.version engine.options with
  | error failure =>
      obtain rfl := pickCompaction_error picked
      refine .inr ⟨fun safe => safe.2 rfl, ?_, ?_⟩
      · refine (bind_of_ok (show current _ = .ok _ _ from rfl)).trans ?_
        dsimp only
        rw [picked]
        rfl
      · unfold Ghost.compact
        rw [picked]
  | ok choice =>
      cases choice with
      | none =>
          have idle : compactOnce (⟨disk, engine, []⟩ : Db fmt) = .ok () ⟨disk, engine, []⟩ := by
            refine (bind_of_ok (show current _ = .ok _ _ from rfl)).trans ?_
            dsimp only
            rw [picked]
            rfl
          refine .inl ⟨_, idle, ?_⟩
          have same : ghost.compact (⟨disk, engine, []⟩ : Db fmt) = ghost := by
            unfold Ghost.compact
            rw [picked]
          rw [same]
      | some job =>
          by_cases room : Roomy (⟨disk, engine, []⟩ : Db fmt)
          · have admissible := consistent.stocked.levelled.admissible_of_pick consistent.depth picked
            have inputsHeld : ∀ input ∈ job.inputs, Held sound disk.sst input :=
              fun input isInput => consistent.stocked.held input (admissible.inputs_mem isInput)
            have valid := (mergedEntries_spec inputsHeld
              (dropTombstones engine.version engine.options job)).2.1
            obtain ⟨file, handle, created, _⟩ := sound.create_ok valid (fits job picked)
            refine .inl ⟨_, compactOnce_noFaults consistent.stocked.held
              consistent.stocked.levelled consistent.depth picked consistent.unlisted room
              created, ?_⟩
            have ghostEq : ghost.compact (⟨disk, engine, []⟩ : Db fmt) =
                ghost.compacted (⟨disk, engine, []⟩ : Db fmt) job := by
              unfold Ghost.compact
              rw [picked]
              exact if_neg (Nat.not_lt.mpr room)
            rw [ghostEq]
            exact ReflTransGen.single (Step.compact room picked (fits job picked) created)
          · refine .inr ⟨fun safe => room safe.1, ?_, ?_⟩
            · refine (bind_of_ok (show current _ = .ok _ _ from rfl)).trans ?_
              dsimp only
              rw [picked]
              exact bind_of_error (nextTableId_panic room)
            · unfold Ghost.compact
              rw [picked]
              exact if_pos (Nat.lt_of_not_le room)

theorem workerPass_steps (consistent : Consistent sound db) (fits : DrainFits Fits 1 db)
    (ghost : Ghost) :
    ∃ next, workerPass db = .ok () next ∧
      ReflTransGen (Step sound) (db, ghost) (next, ghost.workerPass db) := by
  by_cases idle : db.engine.inbox = 0 ∨ db.engine.running = false
  · refine ⟨db, if_pos idle, ?_⟩
    have same : ghost.workerPass db = ghost := if_pos idle
    rw [same]
  · obtain ⟨pending, alive⟩ := not_or.mp idle
    have taking : Step sound (db, ghost)
        ({ db with engine := { db.engine with inbox := db.engine.inbox - 1 } }, ghost) :=
      Step.bookkeeping consistent ghost db.engine.lastError _ db.engine.running
    have consistent' := taking.consistent consistent
    have ghostEq : ghost.workerPass db =
        ghost.compact { db with engine := { db.engine with inbox := db.engine.inbox - 1 } } :=
      if_neg idle
    rw [ghostEq]
    unfold workerPass
    rw [if_neg idle]
    dsimp only
    rcases compactOnce_ends consistent' (fits.1 pending (by simpa using alive)) ghost with
      ⟨next, done, steps⟩ | ⟨_, failed, same⟩
    · exact ⟨next, by rw [done], ReflTransGen.head taking steps⟩
    · refine ⟨_, by rw [failed], ?_⟩
      rw [same]
      exact (ReflTransGen.single taking).tail
        (Step.bookkeeping consistent' ghost db.engine.lastError (db.engine.inbox - 1) false)

theorem drain_steps (requests : Nat) (consistent : Consistent sound db)
    (fits : DrainFits Fits requests db) (ghost : Ghost) :
    ∃ next, drain requests db = .ok () next ∧
      ReflTransGen (Step sound) (db, ghost) (next, ghost.drain requests db) := by
  induction requests generalizing db ghost with
  | zero => exact ⟨db, rfl, ReflTransGen.refl⟩
  | succ requests ih =>
      obtain ⟨middle, passed, steps⟩ := workerPass_steps consistent
        ⟨fits.1, fun _ _ => trivial⟩ ghost
      obtain ⟨next, drained, more⟩ := ih (steps_consistent steps consistent)
        (fits.2 middle passed) (ghost.workerPass db)
      refine ⟨next, bind_eq_ok.mpr ⟨(), middle, passed, drained⟩, ?_⟩
      have ghostEq : ghost.drain (requests + 1) db =
          (ghost.workerPass db).drain requests middle := by
        rw [Ghost.drain, passed]
      rw [ghostEq]
      exact steps.trans more

/-- Opening the directory of a consistent database finds the tables where its
manifest lists them. -/
theorem Consistent.openWith_eq (consistent : Consistent sound db) {placed : Placement fmt}
    (listed : db.engine.manifest.tables = placed.listing)
    (inVersion : ∀ item ∈ placed, item.1 ∈ db.engine.version.tablesNewestFirst)
    (recordable : placed.Recordable db.engine.options.maxLevels) :
    openWith db.engine.options db.disk = .ok (db.reopened placed).engine := by
  obtain ⟨records, isLog, replayed⟩ := consistent.recorded
  obtain ⟨operations, opFits, isWal, isMemtable⟩ := consistent.logged
  have recovered : Manifest.recover db.disk.manifest = .ok db.engine.manifest := by
    have whole := Manifest.recover_log records (show ([] : Bytes).length < manifestRecordLen by decide)
    rwa [List.append_nil, ← isLog, replayed] at whole
  have walReplayed : replay db.disk.wal = .ok operations := by
    have whole := replay_records_append (fun operation member => (opFits operation member).1) []
    have nothing : replay [] = .ok [] := rfl
    rw [List.append_nil, nothing] at whole
    rw [isWal, whole]
    exact congrArg Except.ok (List.append_nil _)
  have opened := openWith_of_placement sound recovered listed
    (fun item member => consistent.stocked.held item.1 (inVersion item member)) recordable
    walReplayed
  rw [opened, ← isMemtable]
  rfl

theorem Consistent.openWith_fits (consistent : Consistent sound db)
    (fit : LevelsFit db.engine.version) :
    ∃ placed : Placement fmt, Places placed db.engine.version ∧
      db.engine.manifest.tables = placed.listing ∧
      openWith db.engine.options db.disk = .ok (db.reopened placed).engine := by
  obtain ⟨placed, places, listed⟩ := consistent.mirrored
  have recordable := places.recordable fit
  rw [consistent.depth] at recordable
  exact ⟨placed, places, listed,
    consistent.openWith_eq listed (fun _ member => places.mem_tables member) recordable⟩

theorem reopen_steps (consistent : Consistent sound db)
    (fits : DrainFits Fits db.engine.inbox db) (reopens : ReopenFits db) (ghost : Ghost) :
    ∃ next, reopen db = .ok () next ∧
      ReflTransGen (Step sound) (db, ghost) (next, ghost.drain db.engine.inbox db) := by
  obtain ⟨middle, drained, steps⟩ := drain_steps db.engine.inbox consistent fits ghost
  have closed : shutdown db = .ok () middle := drained
  have consistent' := steps_consistent steps consistent
  have fit := reopens middle closed
  obtain ⟨placed, places, listed, opened⟩ := consistent'.openWith_fits fit
  refine ⟨middle.reopened placed, ?_, steps.tail (Step.reopen places listed fit)⟩
  refine bind_eq_ok.mpr ⟨(), middle, closed, bind_eq_ok.mpr ⟨middle, middle, rfl, ?_⟩⟩
  rw [opened]
  rfl

theorem get_steps (consistent : Consistent sound db) {key : Key}
    (valid : validateKey key = .ok ()) (ghost : Ghost) :
    ∃ value next, get key db = .ok value next ∧
      ReflTransGen (Step sound) (db, ghost) (next, ghost) := by
  obtain ⟨cache, skips, reads, searched, coherent⟩ := searchTables_spec sound key
    consistent.stocked.held consistent.coherent
  have looking : Step sound (db, ghost) ({ db with engine := { db.engine with
      cache := cache, bloomSkips := skips, sstableReads := reads } }, ghost) :=
    Step.note cache db.engine.lastError skips reads db.engine.inbox db.engine.running coherent
  unfold get
  rw [valid]
  dsimp only
  cases db.engine.memtable.get key with
  | some entry => cases entry <;> exact ⟨_, _, rfl, ReflTransGen.refl⟩
  | none =>
      cases db.engine.immutable.bind (·.get key) with
      | some entry => cases entry <;> exact ⟨_, _, rfl, ReflTransGen.refl⟩
      | none => exact ⟨_, _, searched, ReflTransGen.single looking⟩

end Actions

/-! ## Commands -/

theorem validateKey_eq_ok_iff {key : Key} :
    validateKey key = .ok () ↔ key ≠ [] ∧ key.length ≤ maxKeySize := by
  unfold validateKey
  split
  · rename_i empty
    exact ⟨(nomatch ·), fun valid => absurd empty valid.1⟩
  · split
    · rename_i nonempty long
      exact ⟨(nomatch ·), fun valid => absurd valid.2 (Nat.not_le.mpr long)⟩
    · rename_i nonempty short
      exact ⟨fun _ => ⟨nonempty, Nat.not_lt.mp short⟩, fun _ => rfl⟩

theorem validateValue_eq_ok_iff {value : Bytes} :
    validateValue value = .ok () ↔ value.length ≤ maxValueSize := by
  unfold validateValue
  split
  · rename_i long
    exact ⟨(nomatch ·), fun valid => absurd valid (Nat.not_le.mpr long)⟩
  · rename_i short
    exact ⟨fun _ => Nat.not_lt.mp short, fun _ => rfl⟩

/-- A put is refused without any effect, or it is a write within the limits. -/
theorem put_cases (key value : Bytes) :
    ((Command.put key value).operation = none ∧
      ∃ cause, ∀ db : Db fmt, put key value db = .error (.error cause) db) ∨
    (Command.put key value).operation = some (.put key value) ∧
      (Operation.put key value).Fits ∧ key ≠ [] ∧
      ∀ db : Db fmt, put key value db = write (.put key value) db := by
  unfold put
  cases keyValid : validateKey key with
  | error cause => exact .inl ⟨by simp only [Command.operation, keyValid], cause, fun _ => rfl⟩
  | ok _ =>
      cases valueValid : validateValue value with
      | error cause =>
          exact .inl ⟨by simp only [Command.operation, keyValid, valueValid], cause, fun _ => rfl⟩
      | ok _ =>
          obtain ⟨nonempty, short⟩ := validateKey_eq_ok_iff.mp keyValid
          exact .inr ⟨by simp only [Command.operation, keyValid, valueValid],
            ⟨short, validateValue_eq_ok_iff.mp valueValid⟩, nonempty, fun _ => rfl⟩

/-- A deletion is refused without any effect, or it is a write within the limits. -/
theorem delete_cases (key : Bytes) :
    ((Command.delete key).operation = none ∧
      ∃ cause, ∀ db : Db fmt, delete key db = .error (.error cause) db) ∨
    (Command.delete key).operation = some (.delete key) ∧
      (Operation.delete key).Fits ∧ key ≠ [] ∧
      ∀ db : Db fmt, delete key db = write (.delete key) db := by
  unfold delete
  cases keyValid : validateKey key with
  | error cause => exact .inl ⟨by simp only [Command.operation, keyValid], cause, fun _ => rfl⟩
  | ok _ =>
      obtain ⟨nonempty, short⟩ := validateKey_eq_ok_iff.mp keyValid
      exact .inr ⟨by simp only [Command.operation, keyValid], ⟨short, Nat.zero_le _⟩, nonempty,
        fun _ => rfl⟩

theorem execute_of_ok {command : Command} {db next : Db fmt}
    (done : command.action db = .ok () next) : execute command db = .ok next := by
  unfold execute
  rw [done]

/-- An operation that fails without any effect leaves the database as it was. -/
theorem execute_of_error {command : Command} {db : Db fmt} {cause : Error}
    (failed : command.action db = .error (.error cause) db) (open_ : command ≠ .reopen) :
    execute command db = .ok db := by
  unfold execute
  rw [failed]
  exact if_neg open_

theorem execute_of_panic {command : Command} {db next : Db fmt}
    (failed : command.action db = .error .panic next) : execute command db = .error .panic := by
  unfold execute
  rw [failed]

/-- The command leads to a state reached by steps, or it is not safe and panics. -/
def Executes (sound : fmt.Sound Fits) (command : Command) (db : Db fmt) (ghost : Ghost) : Prop :=
  (∃ next, execute command db = .ok next ∧
      ReflTransGen (Step sound) (db, ghost) (next, ghost.after command db)) ∨
    ¬ Safe command db ∧ execute command db = .error .panic

theorem Ends.executes {sound : fmt.Sound Fits} {command : Command} {db : Db fmt}
    {ghost : Ghost} (ends : Ends sound command.action db ghost (ghost.after command db)
      (Safe command db)) : Executes sound command db ghost := by
  rcases ends with ⟨next, done, steps⟩ | ⟨unsafe_, next, failed⟩
  · exact .inl ⟨next, execute_of_ok done, steps⟩
  · exact .inr ⟨unsafe_, execute_of_panic failed⟩

/-- **A command on a consistent database is a sequence of steps, or it panics.** -/
theorem execute_steps {sound : fmt.Sound Fits} {db : Db fmt} (consistent : Consistent sound db)
    {command : Command} (admitted : Admitted Fits command db) (ghost : Ghost) :
    Executes sound command db ghost := by
  have writing : ∀ operation : Operation, command.operation = some operation →
      operation.Fits → operation.key ≠ [] → command.action db = write operation db →
      Fits db.engine.options (apply db.engine.memtable operation).iter →
      ghost.after command db = ghost.write db operation → (Safe command db ↔ Roomy db) →
      Executes sound command db ghost := by
    intro operation accepted opFits keyed acts fits ghostEq safe
    refine Ends.executes ?_
    unfold Ends
    rw [ghostEq, acts, safe]
    exact write_ends consistent opFits keyed fits ghost
  cases command with
  | put key value =>
      rcases @put_cases fmt key value with
        ⟨refused, cause, failed⟩ | ⟨accepted, opFits, keyed, acts⟩
      · refine .inl ⟨db, execute_of_error (failed db) nofun, ?_⟩
        simp only [Ghost.after, refused]
        exact ReflTransGen.refl
      · refine writing _ accepted opFits keyed (acts db) admitted ?_ Iff.rfl
        simp only [Ghost.after, accepted]
  | delete key =>
      rcases @delete_cases fmt key with
        ⟨refused, cause, failed⟩ | ⟨accepted, opFits, keyed, acts⟩
      · refine .inl ⟨db, execute_of_error (failed db) nofun, ?_⟩
        simp only [Ghost.after, refused]
        exact ReflTransGen.refl
      · refine writing _ accepted opFits keyed (acts db) admitted ?_ Iff.rfl
        simp only [Ghost.after, accepted]
  | get key =>
      cases valid : validateKey key with
      | error cause =>
          have failed : get key db = .error (.error cause) db := by
            unfold get
            rw [valid]
          refine .inl ⟨db, @execute_of_error fmt (.get key) db cause ?_ nofun, ReflTransGen.refl⟩
          change (EStateM.map (Function.const _ ()) (get key)) db = _
          unfold EStateM.map
          rw [failed]
      | ok _ =>
          obtain ⟨value, next, done, steps⟩ := get_steps consistent valid ghost
          refine .inl ⟨next, execute_of_ok ?_, steps⟩
          change (EStateM.map (Function.const _ ()) (get key)) db = _
          unfold EStateM.map
          rw [done]
  | flush => exact Ends.executes (flush_ends consistent admitted ghost)
  | compact =>
      refine Ends.executes ?_
      rcases compactOnce_ends consistent admitted ghost with done | ⟨unsafe_, failed, _⟩
      · exact .inl done
      · exact .inr ⟨unsafe_, db, failed⟩
  | workerPass => exact Ends.executes (.inl (workerPass_steps consistent admitted ghost))
  | reopen => exact Ends.executes (.inl (reopen_steps consistent admitted.1 admitted.2 ghost))

/-! ## Whole runs -/

/-- **A run is a sequence of steps.** -/
theorem run_steps {sound : fmt.Sound Fits} {commands : List Command} {db final : Db fmt}
    (consistent : Consistent sound db) (admitted : AllSteps (Admitted Fits) commands db)
    (executed : executeAll commands db = .ok final) (ghost : Ghost) :
    ReflTransGen (Step sound) (db, ghost) (final, ghost.afterAll commands db) := by
  induction commands generalizing db ghost with
  | nil =>
      cases executed
      exact ReflTransGen.refl
  | cons command rest ih =>
      unfold executeAll at executed
      rcases execute_steps consistent admitted.1 ghost with ⟨next, done, steps⟩ | ⟨_, failed⟩
      · rw [done] at executed
        have more := ih (steps_consistent steps consistent) (admitted.2 next done) executed
          (ghost.after command db)
        have ghostEq : ghost.afterAll (command :: rest) db =
            (ghost.after command db).afterAll rest next := by
          rw [Ghost.afterAll, done]
        rw [ghostEq]
        exact steps.trans more
      · rw [failed] at executed
        cases executed

/-- A run comes to its end, or it panics at a command that is not safe. -/
theorem run_outcome {sound : fmt.Sound Fits} {commands : List Command} {db : Db fmt}
    (consistent : Consistent sound db) (admitted : AllSteps (Admitted Fits) commands db) :
    (∃ final, executeAll commands db = .ok final) ∨
      executeAll commands db = .error .panic ∧ ¬ AllSteps Safe commands db := by
  induction commands generalizing db with
  | nil => exact .inl ⟨db, rfl⟩
  | cons command rest ih =>
      rw [executeAll]
      rcases execute_steps consistent admitted.1 Ghost.start with
        ⟨next, done, steps⟩ | ⟨unsafe_, failed⟩
      · rw [done]
        rcases ih (steps_consistent steps consistent) (admitted.2 next done) with
          ends | ⟨panics, unsafe_⟩
        · exact .inl ends
        · exact .inr ⟨panics, fun safe => unsafe_ (safe.2 next done)⟩
      · rw [failed]
        exact .inr ⟨rfl, fun safe => unsafe_ safe.1⟩

/-- The history of a run is the list of its accepted writes. -/
theorem history_afterAll {commands : List Command} {db final : Db fmt}
    (executed : executeAll commands db = .ok final) (ghost : Ghost) :
    (ghost.afterAll commands db).history =
      ghost.history ++ commands.filterMap Command.operation := by
  induction commands generalizing db ghost with
  | nil => exact (List.append_nil _).symm
  | cons command rest ih =>
      unfold executeAll at executed
      cases done : execute command db with
      | error failure => rw [done] at executed; cases executed
      | ok next =>
          rw [done] at executed
          rw [Ghost.afterAll, done]
          dsimp only
          rw [ih executed, Ghost.history_after, List.append_assoc]
          congr 1
          cases accepted : command.operation with
          | none => rw [List.filterMap_cons_none accepted]; rfl
          | some operation => rw [List.filterMap_cons_some accepted]; rfl

/-! ## New databases -/

/-- A new database. -/
def Db.new (fmt : TableFormat) (options : Options) : Db fmt where
  disk := Disk.empty fmt
  engine := Engine.opened options .initial (rebuilt options.maxLevels []) MemTable.new
  faults := []

theorem openNew_eq (fmt : TableFormat) (options : Options) :
    openNew fmt options = .ok (Db.new fmt options) := by
  have vacant : rebuilt options.maxLevels [] =
      orderLevels (Version.withMaxLevels fmt options.maxLevels) := by
    have levels : (List.range options.maxLevels).map (Placement.tablesAt ([] : Placement fmt)) =
        List.replicate options.maxLevels [] := by
      refine List.eq_replicate_iff.mpr ⟨by simp, fun level member => ?_⟩
      obtain ⟨depth, _, rfl⟩ := List.mem_map.mp member
      rfl
    rw [rebuilt, levels]
    rfl
  unfold Db.new
  rw [vacant]
  rfl

theorem openWith_empty (fmt : TableFormat) (options : Options) :
    openWith options (Disk.empty fmt) = .ok (Db.new fmt options).engine := by
  have opened := openNew_eq fmt options
  unfold openNew at opened
  split at opened
  · cases opened
  · rename_i engine isEngine
    cases opened
    exact isEngine

theorem level_new (options : Options) (depth : Nat) :
    (Db.new fmt options).engine.version.level depth = [] := by
  have recordable : Placement.Recordable ([] : Placement fmt) options.maxLevels :=
    List.forall_mem_nil _
  exact (level_rebuilt_perm recordable depth).eq_nil

theorem tables_new (options : Options) :
    (Db.new fmt options).engine.version.tablesNewestFirst = [] := by
  refine List.eq_nil_iff_forall_not_mem.mpr ?_
  intro table member
  obtain ⟨depth, inLevel⟩ := Version.mem_tables_iff.mp member
  rw [level_new] at inLevel
  cases inLevel

/-- A new database is consistent. -/
theorem new_consistent (sound : fmt.Sound Fits) {options : Options}
    (positive : 1 ≤ options.maxLevels) : Consistent sound (Db.new fmt options) where
  positive := positive
  depth := length_levels_rebuilt
  stocked := by
    refine ⟨?_, ?_, ?_⟩
    · rw [tables_new]
      exact List.forall_mem_nil _
    · rw [tables_new]
      exact List.nodup_nil
    · intro depth _
      rw [level_new]
      exact List.Pairwise.nil
  sorted := levelsSorted_rebuilt
  mirrored := by
    refine ⟨[], ⟨?_, ?_⟩, rfl⟩
    · rw [level_new]
      rfl
    · intro depth _
      rw [level_new]
      exact List.Perm.nil
  unused := fun _ _ => rfl
  recorded := ⟨[], rfl, rfl⟩
  logged := ⟨[], List.forall_mem_nil _, rfl, rfl⟩
  thawed := rfl
  coherent := sound.coherent_empty _ _
  noFaults := rfl

theorem new_refines (options : Options) : Refines (Db.new fmt options, Ghost.start) := by
  intro key
  unfold Db.reading Db.tableLookup
  rw [tables_new]
  rfl

end LsmStore
