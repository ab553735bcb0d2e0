import LsmStore.ByteTables
import LsmStore.Kept

/-!
# A process that stops in a flush

A process may stop between any two file operations of a flush, or in the middle of
one.  The directory it leaves has what the operations before the stop wrote and as
much of the next one as got out.  Reopening it returns for every key what the engine
returned before the flush began (`flush_crash_safe`): the data is in the log alone,
in the log and in a table, or in a table alone, and it reads the same from each.

What a stopped flush cannot repair is a table in a level whose number the manifest
cuts to 32 bits (`flush_crash_beyond_32_bits`).
-/

set_option autoImplicit false

namespace LsmStore

open Foundation

variable {fmt : TableFormat} {Fits : Options → List (Key × Entry) → Prop}

/-- The directory of a process that stops in an action.  The plan says where: the
operations before the first failing one are carried out, and the failing one gets
as far as its verdict says. -/
def Db.stoppedIn {α : Type} (db : Db fmt) (action : Action fmt α) (plan : List Verdict) :
    Disk fmt :=
  match action (db.planned plan) with
  | .ok _ after => after.disk
  | .error _ after => after.disk

theorem Db.stoppedIn_of_yields {α : Type} {db : Db fmt} {action : Action fmt α}
    {plan : List Verdict} {Holds : Db fmt → Prop}
    (yields : Yields action (db.planned plan) (fun _ after => Holds after)
      (fun _ after => Holds after)) :
    ∃ after, Holds after ∧ db.stoppedIn action plan = after.disk := by
  unfold Db.stoppedIn
  cases ran : action (db.planned plan) with
  | ok value after => exact ⟨after, yields.ok ran, rfl⟩
  | error failure after => exact ⟨after, yields.error ran, rfl⟩

/-- A key that is not valid is refused in the same way by every engine. -/
theorem eval_get_congr {db db' : Db fmt} {key : Key}
    (same : validateKey key = .ok () → db'.eval (get key) = db.eval (get key)) :
    db'.eval (get key) = db.eval (get key) := by
  cases valid : validateKey key with
  | ok value => exact same valid
  | error cause => rw [Db.eval, Db.eval, get, get, valid]

/-! ## What a flush leaves alone -/

/-- The options and the levels below level 0 are the same. -/
structure SameDepths (db after : Db fmt) : Prop where
  options : after.engine.options = db.engine.options
  levels : ∀ depth, 1 ≤ depth → after.engine.version.level depth = db.engine.version.level depth

theorem SameDepths.refl (db : Db fmt) : SameDepths db db := ⟨rfl, fun _ _ => rfl⟩

theorem SameDepths.trans {db mid after : Db fmt} (first : SameDepths db mid)
    (second : SameDepths mid after) : SameDepths db after :=
  ⟨second.options.trans first.options,
    fun depth deep => (second.levels depth deep).trans (first.levels depth deep)⟩

/-- However it ends, the action leaves options and deeper levels alone. -/
def Shallow {α : Type} (action : Action fmt α) : Prop :=
  ∀ db, Yields action db (fun _ after => SameDepths db after) (fun _ after => SameDepths db after)

namespace Shallow

theorem bind {α β : Type} {first : Action fmt α} {next : α → Action fmt β} (shallow : Shallow first)
    (then_ : ∀ value, Shallow (next value)) : Shallow (first >>= next) := by
  intro db
  refine (shallow db).bind ?_
  intro value mid same
  exact (then_ value mid).imp (fun _ _ => same.trans) (fun _ _ => same.trans)

theorem current : Shallow (current : Action fmt (Db fmt)) := fun db => SameDepths.refl db

theorem walSync : Shallow (walSync : Action fmt Unit) := by
  intro db
  refine Yields.intro ?_ ?_
  · intro _ after done
    obtain ⟨faults, rfl⟩ := walSync_of_ok done
    exact ⟨rfl, fun _ _ => rfl⟩
  · intro failure after failed
    obtain ⟨_, faults, rfl⟩ := walSync_of_error failed
    exact ⟨rfl, fun _ _ => rfl⟩

theorem walTruncate : Shallow (walTruncate : Action fmt Unit) := by
  intro db
  refine Yields.intro ?_ ?_
  · intro _ after done
    obtain ⟨faults, rfl⟩ := walTruncate_of_ok done
    exact ⟨rfl, fun _ _ => rfl⟩
  · intro failure after failed
    obtain ⟨_, wal, faults, _, rfl⟩ := walTruncate_of_error failed
    exact ⟨rfl, fun _ _ => rfl⟩

theorem nextTableId : Shallow (nextTableId : Action fmt UInt64) := by
  intro db
  refine Yields.intro ?_ ?_
  · intro _ after done
    obtain ⟨_, _, faults, rfl⟩ := nextTableId_of_ok done
    exact ⟨rfl, fun _ _ => rfl⟩
  · intro failure after failed
    rcases nextTableId_of_error failed with ⟨_, _, rfl⟩ | ⟨_, _, progress, faults, _, rfl⟩
    · exact SameDepths.refl _
    · exact ⟨rfl, fun _ _ => rfl⟩

theorem createTable (id : UInt64) (entries : List (Key × Entry)) :
    Shallow (createTable id entries : Action fmt (SsTable fmt)) := by
  intro db
  refine Yields.intro ?_ ?_
  · intro _ after done
    obtain ⟨file, handle, faults, _, _, rfl⟩ := createTable_of_ok done
    exact ⟨rfl, fun _ _ => rfl⟩
  · intro failure after failed
    rcases createTable_of_error failed with ⟨_, rfl⟩ | ⟨_, _, _, _, disk, faults, rfl, _⟩
    · exact SameDepths.refl _
    · exact ⟨rfl, fun _ _ => rfl⟩

theorem addTable (id : UInt64) (level : UInt32) :
    Shallow (addTable id level : Action fmt Unit) := by
  intro db
  refine Yields.intro ?_ ?_
  · intro _ after done
    obtain ⟨_, faults, rfl⟩ := addTable_of_ok done
    exact ⟨rfl, fun _ _ => rfl⟩
  · intro failure after failed
    rcases addTable_of_error failed with ⟨_, _, rfl⟩ | ⟨_, progress, faults, _, rfl⟩
    · exact SameDepths.refl _
    · exact ⟨rfl, fun _ _ => rfl⟩

theorem pushFront (table : SsTable fmt) : Shallow (pushFront table : Action fmt Unit) := by
  intro db
  unfold Yields LsmStore.pushFront
  cases pushed : db.engine.version.pushFront table with
  | error failure => exact SameDepths.refl db
  | ok version => exact ⟨rfl, (pushFront_eq_ok pushed).2.2.2⟩

theorem flushMemtable : Shallow (flushMemtable : Action fmt Unit) := by
  refine current.bind fun db => ?_
  split
  · exact walSync
  · refine bind (fun db => ⟨rfl, fun _ _ => rfl⟩) fun snapshot => ?_
    refine nextTableId.bind fun id => (createTable id snapshot).bind fun table => ?_
    refine (addTable id 0).bind fun _ => (pushFront table).bind fun _ => ?_
    exact walTruncate.bind fun _ db => ⟨rfl, fun _ _ => rfl⟩

end Shallow

/-! ## Stopping in a flush -/

/-- From a consistent database, wherever the flush stops. -/
theorem Consistent.flush_stops {sound : fmt.Sound Fits} {db : Db fmt}
    (consistent : Consistent sound db) (levels : LevelsFit db.engine.version)
    (fits : Fits db.engine.options db.engine.memtable.iter) (plan : List Verdict) :
    ∃ engine, openWith db.engine.options (db.stoppedIn flushMemtable plan) = .ok engine ∧
      ∀ key, (⟨db.stoppedIn flushMemtable plan, engine, []⟩ : Db fmt).eval (get key) =
        db.eval (get key) := by
  obtain ⟨shelf, kept, aligned, whole⟩ := consistent.kept
  have inStep : (db.planned plan).InStep := by
    refine ⟨whole, ?_⟩
    change (Manifest.recover db.disk.manifest).map _ = _
    rw [kept.shelved.recorded.recover]
    exact congrArg Except.ok aligned
  have covered : (db.planned plan).Covered := by
    intro key entry _ parked
    change db.engine.immutable.bind (·.get key) = _ at parked
    rw [consistent.thawed] at parked
    cases parked
  have left : Left sound False db.reading (db.planned plan) :=
    Left.planned ⟨shelf, kept, False.elim⟩ plan
  have keeps := left.flushMemtable False.elim fits fun _ => ⟨inStep, covered⟩
  have flushed := (keeps.imp (fun _ _ left => left) (fun _ _ fails => fails.1)).and
    (Shallow.flushMemtable _)
  obtain ⟨after, ⟨⟨shelf', kept', _⟩, same⟩, isDisk⟩ := Db.stoppedIn_of_yields flushed
  have fit : LevelsFit after.engine.version := by
    intro depth beyond
    rw [same.levels depth (le_trans (by decide) beyond)]
    exact levels depth beyond
  obtain ⟨engine, opened, reads⟩ := kept'.reopens fit
  rw [same.options] at opened
  rw [isDisk]
  refine ⟨engine, opened, fun key => eval_get_congr fun valid => ?_⟩
  rw [reads key valid, consistent.eval_get valid]

/-- **A flush is crash safe.**  Take any database that a run without failing file
operations has reached, and let the process stop anywhere in a flush: between two
file operations or inside one.  Opening the directory succeeds, and every read
returns what it returned just before the flush.  Asked of the run is what
`run_refines_reference` asks, and of the stopped database that no table lies in a
level beyond 32 bits and that the flushed table fits its format. -/
theorem flush_crash_safe (sizing : BloomSizing) {options : Options}
    (positive : 1 ≤ options.maxLevels) {start db : Db (byteTables sizing)}
    (opened : openNew (byteTables sizing) options = .ok start) {commands : List Command}
    (admitted : AllSteps (Admitted (TableFits sizing)) commands start)
    (executed : executeAll commands start = .ok db) (levels : LevelsFit db.engine.version)
    (fits : TableFits sizing options db.engine.memtable.iter) (plan : List Verdict) :
    ∃ engine, openWith options (db.stoppedIn flushMemtable plan) = .ok engine ∧
      ∀ key, (⟨db.stoppedIn flushMemtable plan, engine, []⟩ : Db (byteTables sizing)).eval
        (get key) = db.eval (get key) := by
  rw [openNew_eq (byteTables sizing)] at opened
  cases opened
  have consistent := new_consistent (byteTables_sound sizing) positive
  have steps := run_steps consistent admitted executed Ghost.start
  have sameOptions : db.engine.options = options := steps_options steps
  have reached := steps_consistent steps consistent
  rw [← sameOptions] at fits ⊢
  exact reached.flush_stops levels fits plan

/-- The record of the new table is cut after five bytes: the value comes from the
log. -/
theorem flush_crash_safe_torn_record :
    ∃ (start db : Db (byteTables smallSizing)) (engine : Engine (byteTables smallSizing)),
      openNew (byteTables smallSizing) tinyOptions = .ok start ∧
      executeAll [.put [97] [49]] start = .ok db ∧
      openWith tinyOptions (db.stoppedIn flushMemtable [.done, .done, .fail 5]) = .ok engine ∧
      (⟨db.stoppedIn flushMemtable [.done, .done, .fail 5], engine, []⟩
        : Db (byteTables smallSizing)).eval (get [97]) = .ok (some [49]) := by
  have opened := openNew_eq (byteTables smallSizing) tinyOptions
  have executed : executeAll [.put [97] [49]] (Db.new (byteTables smallSizing) tinyOptions) =
      .ok ((Db.new (byteTables smallSizing) tinyOptions).written (.put [97] [49])) := rfl
  have levels : LevelsFit ((Db.new (byteTables smallSizing) tinyOptions).written
      (.put [97] [49])).engine.version := by
    intro depth beyond
    refine Version.level_of_le (le_trans ?_ beyond)
    change (rebuilt tinyOptions.maxLevels []).levels.length ≤ _
    rw [length_levels_rebuilt]
    decide
  have admitted : AllSteps (Admitted (TableFits smallSizing)) [.put [97] [49]]
      (Db.new (byteTables smallSizing) tinyOptions) := ⟨tinyTable_fits, fun _ _ => trivial⟩
  obtain ⟨engine, reopened, reads⟩ := flush_crash_safe smallSizing (by decide) opened admitted
    executed levels tinyTable_fits [.done, .done, .fail 5]
  exact ⟨_, _, engine, opened, executed, reopened, (reads [97]).trans rfl⟩

/-! ## Levels beyond 32 bits -/

/-- Before the reopening the newer table is read first. -/
theorem Laden.tableLookup_eq {sound : fmt.Sound Fits} {options : Options} {db : Db fmt}
    {older newer : SsTable fmt} {key new : Bytes}
    (laden : Laden sound options [(newer, 1), (older, 2 ^ 32)] db) (sinking : Sinking options)
    (entries : entriesOn db.disk.sst newer = [(key, .value new)]) :
    db.tableLookup key = some (.value new) := by
  have levels := sinking.levels
  have depth := laden.consistent.depth
  rw [laden.options_eq] at depth
  obtain ⟨more, isDepth⟩ : ∃ more, db.engine.version.levels.length = more + 2 :=
    ⟨db.engine.version.levels.length - 2, by omega⟩
  have top : db.engine.version.level 0 = [] := laden.levels 0
  have second : db.engine.version.level 1 = [newer] := laden.levels 1
  rw [Db.tableLookup, lookupIn, Version.tables_eq_flatMap, isDepth, findSome?_flatMap,
    List.range_succ_eq_map, List.range_succ_eq_map, List.map_cons, List.findSome?_cons, top,
    List.findSome?_cons, second]
  simp [entryIn, entries, valueAt]

/-- Stopping before the first file operation of a flush leaves the directory as it
was. -/
theorem stoppedIn_flush_at_once {db : Db fmt} (nonempty : db.engine.memtable.isEmpty = false) :
    db.stoppedIn flushMemtable [.fail 0] = db.disk := by
  have fails : ∃ failure after, nextTableId (db.planned [.fail 0]).frozen = .error failure after ∧
      after.disk = db.disk := by
    cases ran : nextTableId (db.planned [.fail 0]).frozen with
    | ok id after =>
        rcases nextTableId_passed ran with ⟨impossible, _⟩ | impossible
        · cases impossible
        · cases impossible
    | error failure after =>
        refine ⟨failure, after, rfl, ?_⟩
        rcases nextTableId_of_error ran with ⟨_, _, rfl⟩ | ⟨_, _, progress, faults, isPlan, rfl⟩
        · rfl
        · cases isPlan
          dsimp only
          rw [List.take_zero, List.append_nil]
          rfl
  obtain ⟨failure, after, failed, same⟩ := fails
  have stopped : flushMemtable (db.planned [.fail 0]) = .error failure after := by
    refine (bind_of_ok (show current (db.planned [.fail 0]) = .ok _ _ from rfl)).trans ?_
    rw [if_neg (by change ¬ db.engine.memtable.isEmpty = true; simp [nonempty])]
    refine (bind_of_ok (show freeze (db.planned [.fail 0]) = .ok _ _ from rfl)).trans ?_
    exact bind_of_error failed
  rw [Db.stoppedIn, stopped]
  exact same

/-- **A flush that has not begun cannot be survived beyond 32 bits.**  With
`2 ^ 32 + 2` levels, a process that stops before the first file operation of a
flush leaves a directory from which the overwritten value is read. -/
theorem flush_crash_beyond_32_bits :
    ∃ (start db : Db (byteTables smallSizing)) (engine : Engine (byteTables smallSizing)),
      openNew (byteTables smallSizing) wideOptions = .ok start ∧
      executeAll (wrapRun (2 ^ 32) [1] [10] [20] ++ [.put [2] [30]]) start = .ok db ∧
      db.eval (get [1]) = .ok (some [20]) ∧
      openWith wideOptions (db.stoppedIn flushMemtable [.fail 0]) = .ok engine ∧
      (⟨db.stoppedIn flushMemtable [.fail 0], engine, []⟩ : Db (byteTables smallSizing)).eval
        (get [1]) = .ok (some [10]) := by
  obtain ⟨db, older, newer, executed, laden, _, oldEntries, newEntries, memtable, _⟩ :=
    wrapRun_laden (byteTables_sound smallSizing) wideSetting
  generalize wrapRun (2 ^ 32) [1] [10] [20] = commands at executed ⊢
  have small : (apply db.engine.memtable (.put [2] [30])).approximateSize <
      wideOptions.memtableSizeBytes := by
    rw [memtable]
    decide
  obtain ⟨put, laden'⟩ := laden.put (show (Command.put [2] [30]).operation = _ from rfl) small
  have nonempty : (db.written (.put [2] [30])).engine.memtable.isEmpty = false :=
    MemTable.isEmpty_insert db.engine.memtable [2] (.value [30])
  have inMemtable : (db.written (.put [2] [30])).engine.memtable.get [1] = none := by
    change (apply db.engine.memtable (.put [2] [30])).get [1] = none
    rw [memtable]
    rfl
  obtain ⟨version, opened, inVersion, top, deeper, tables, some_, allOlder, _⟩ :=
    laden'.wraps wideOptions_sinking (by decide) (by decide)
  rw [← stoppedIn_flush_at_once nonempty] at opened
  refine ⟨_, _, _, openNew_eq (byteTables smallSizing) wideOptions, ?_, ?_, opened, ?_⟩
  · rw [executeAll_append, executed]
    dsimp only
    rw [executeAll, put]
    rfl
  · rw [laden'.consistent.eval_get rfl, Db.reading, inMemtable, laden'.consistent.thawed,
      laden'.tableLookup_eq wideOptions_sinking newEntries]
    rfl
  · rw [stoppedIn_flush_at_once nonempty]
    have held : ∀ table ∈ version.tablesNewestFirst, Held (byteTables_sound smallSizing)
        (db.written (.put [2] [30])).disk.sst table :=
      fun table member => laden'.consistent.stocked.held table (inVersion table member)
    refine (eval_get (byteTables_sound smallSizing) held
      ((byteTables_sound smallSizing).coherent_empty _ _) rfl).trans ?_
    have stale : lookupIn (entriesOn (db.written (.put [2] [30])).disk.sst) (top ++ deeper) [1] =
        some (.value [10]) := lookupIn_stale some_ allOlder oldEntries
    rw [Db.reading, Db.tableLookup]
    dsimp only [Engine.opened]
    rw [inMemtable, tables, stale]
    rfl

end LsmStore
