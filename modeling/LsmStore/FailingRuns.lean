import LsmStore.ByteTables
import LsmStore.FlushCrash
import LsmStore.KeptRuns

/-!
# What failing flushes and passes keep

Whole runs in which flushes and passes fail, over the byte format of the tables.

A flush that fails parks the memtable it has frozen.  The parked writes are still
read, and the log still holds them; the next flush, however, replaces the parked
memtable and, if it succeeds, empties the log.  No write is lost as long as every
flush finds manifest file and memory in step and finds the parked writes in the
tables as well (`failing_flush_keeps_writes`).

A pass edits the manifest record by record before it touches the version.  Manifest
and version stay the same as long as no pass fails between the record of its output
and the last record of its inputs (`manifest_mirrors_version`).
-/

set_option autoImplicit false

namespace LsmStore

open Foundation

/-! ## Flushes that fail -/

/-- **No applied write is lost by a failing flush**, if every flush of a memtable that
is not empty finds manifest file and memory in step and finds what only the parked
memtable holds in the tables as well.  Then every read returns what the last applied
write of its key left, in the running engine and after a reopening. -/
theorem failing_flush_keeps_writes (sizing : BloomSizing) {options : Options}
    (positive : 1 ≤ options.maxLevels) {start : Db (byteTables sizing)}
    (opened : openNew (byteTables sizing) options = .ok start)
    (attempts : List (Command × List Verdict))
    (permitted : ∀ pair ∈ attempts, Permitted pair.1 pair.2)
    (tended : AllAttempts (fun command _ state =>
      Admitted (TableFits sizing) command state ∧ Tended command state) attempts start) :
    (∃ final, attemptAll attempts start = .ok final ∧
      (∀ key, validateKey key = .ok () → final.eval (get key) =
        .ok (reference (attempts.filterMap fun pair => pair.1.operation) key)) ∧
      (LevelsFit final.engine.version →
        ∃ engine, openWith final.engine.options final.disk = .ok engine ∧
          ∀ key, validateKey key = .ok () →
            (⟨final.disk, engine, []⟩ : Db (byteTables sizing)).eval (get key) =
              .ok (reference (attempts.filterMap fun pair => pair.1.operation) key))) ∨
    attemptAll attempts start = .error .panic ∧
      ¬ AllAttempts (fun command _ state => Safe command state) attempts start := by
  rw [openNew_eq] at opened
  obtain rfl : Db.new (byteTables sizing) options = start := Except.ok.inj opened
  have left := left_new (byteTables_sound sizing) False positive
  rcases left.attemptAll rfl False.elim permitted
    (tended.imp fun _ _ _ meets => ⟨meets.1, fun _ => meets.2⟩) with
    ⟨final, ran, shelf, kept, _⟩ | panics
  · rw [expects_reference, List.nil_append] at kept
    exact .inl ⟨final, ran, fun key valid => kept.eval_get valid, fun fit => kept.reopens fit⟩
  · exact .inr panics

/-- The value of a key that a run ends with. -/
def endsReading (key : Key) (ended : Except Failure (Db (byteTables smallSizing))) :
    Option (Except Failure (Option Bytes)) :=
  match ended with
  | .ok db => some (db.eval (get key))
  | .error _ => none

/-- The number of levels that a run ends with. -/
def endsDepth (ended : Except Failure (Db (byteTables smallSizing))) : Option Nat :=
  match ended with
  | .ok db => some db.engine.version.levels.length
  | .error _ => none

/-- Versions of few levels have only levels that fit. -/
theorem levelsFit_of_length {fmt : TableFormat} {version : Version fmt}
    (few : version.levels.length ≤ 2 ^ 32) : LevelsFit version :=
  fun _ deep => Version.level_of_le (le_trans few deep)

/-- The flush of a value fails before its table is written; the value is read from the
parked memtable, and from the log after a reopening. -/
theorem failing_flush_keeps_parked :
    ∃ start final, openNew (byteTables smallSizing) tinyOptions = .ok start ∧
      attemptAll [(.put [97] [49], []), (.flush, [.done, .fail 0])] start = .ok final ∧
      final.eval (get [97]) = .ok (some [49]) ∧
      ∃ engine, openWith final.engine.options final.disk = .ok engine ∧
        (⟨final.disk, engine, []⟩ : Db (byteTables smallSizing)).eval (get [97]) =
          .ok (some [49]) := by
  have depth : endsDepth (attemptAll [(.put [97] [49], []), (.flush, [.done, .fail 0])]
      (Db.new (byteTables smallSizing) tinyOptions)) = some 2 := by
    decide +kernel
  have tended : AllAttempts (fun command _ state =>
      Admitted (TableFits smallSizing) command state ∧ Tended command state)
      [(.put [97] [49], []), (.flush, [.done, .fail 0])]
      (Db.new (byteTables smallSizing) tinyOptions) := by
    refine ⟨⟨tinyTable_fits, fun full => absurd full (by decide)⟩, fun after put =>
      ⟨⟨?_, ?_⟩, fun _ _ => trivial⟩⟩
    · obtain rfl := Except.ok.inj put
      exact tinyTable_fits
    · obtain rfl := Except.ok.inj put
      exact fun _ => ⟨⟨rfl, rfl⟩, fun _ _ _ parked => nomatch parked⟩
  have permitted : ∀ pair ∈ ([(.put [97] [49], []), (.flush, [.done, .fail 0])] :
      List (Command × List Verdict)), Permitted pair.1 pair.2 := by
    rintro pair (_ | ⟨_, _ | ⟨_, ⟨⟩⟩⟩)
    · exact List.forall_mem_nil _
    · trivial
  rcases failing_flush_keeps_writes smallSizing (by decide) (openNew_eq _ tinyOptions) _ permitted
    tended with ⟨final, ran, reads, reopens⟩ | ⟨panics, _⟩
  · rw [ran] at depth
    have fit : LevelsFit final.engine.version :=
      levelsFit_of_length (le_of_eq_of_le (Option.some.inj depth) (by norm_num))
    obtain ⟨engine, opened, restores⟩ := reopens fit
    exact ⟨_, final, openNew_eq _ _, ran, reads [97] rfl, engine, opened, restores [97] rfl⟩
  · rw [panics] at depth
    cases depth

/-- **A write is lost.**  The flush of the first value fails before its table is
written.  The flush of the second value succeeds: it replaces the parked memtable and
empties the log, and the first value is gone. -/
theorem failing_flush_loses_write :
    ∃ start final, openNew (byteTables smallSizing) tinyOptions = .ok start ∧
      attemptAll [(.put [97] [49], []), (.flush, [.done, .fail 0]), (.put [98] [50], []),
        (.flush, [])] start = .ok final ∧
      final.eval (get [97]) = .ok none ∧
      reference [.put [97] [49], .put [98] [50]] [97] = some [49] := by
  have lost : endsReading [97] (attemptAll [(.put [97] [49], []), (.flush, [.done, .fail 0]),
      (.put [98] [50], []), (.flush, [])] (Db.new (byteTables smallSizing) tinyOptions)) =
      some (.ok none) := by
    decide +kernel
  cases ran : attemptAll [(.put [97] [49], []), (.flush, [.done, .fail 0]),
      (.put [98] [50], []), (.flush, [])] (Db.new (byteTables smallSizing) tinyOptions) with
  | error failure =>
      rw [ran] at lost
      cases lost
  | ok final =>
      rw [ran] at lost
      exact ⟨_, final, openNew_eq _ _, ran, Option.some.inj lost, rfl⟩

/-! ## Manifest appends that fail -/

/-- A command that freezes the memtable finds what only the parked memtable holds in
the tables as well. -/
def Covers {fmt : TableFormat} : Command → Db fmt → Prop
  | .put key value, db =>
      (apply db.engine.memtable (.put key value)).approximateSize ≥
        db.engine.options.memtableSizeBytes → (db.written (.put key value)).Covered
  | .delete key, db =>
      (apply db.engine.memtable (.delete key)).approximateSize ≥
        db.engine.options.memtableSizeBytes → (db.written (.delete key)).Covered
  | .flush, db => db.engine.memtable.isEmpty = false → db.Covered
  | .get _, _ | .compact, _ | .workerPass, _ | .reopen, _ => True

/-- With manifest file and memory in step, that is all a command needs. -/
theorem Covers.tended {fmt : TableFormat} {command : Command} {db : Db fmt}
    (covers : Covers command db) (inStep : db.InStep) : Tended command db := by
  cases command with
  | put key value => exact fun full => ⟨inStep, covers full⟩
  | delete key => exact fun full => ⟨inStep, covers full⟩
  | get key => trivial
  | flush => exact fun filled => ⟨inStep, covers filled⟩
  | compact => exact inStep
  | workerPass => exact fun _ _ => inStep
  | reopen => exact fun _ _ => inStep

/-- In levels that fit, a mirroring list has exactly the tables with their levels. -/
theorem Mirrors.mem_iff {fmt : TableFormat} {listed : List (UInt64 × UInt32)}
    {version : Version fmt} (mirrors : Mirrors listed version) (fit : LevelsFit version)
    (id : UInt64) (depth : Nat) :
    (∃ level, (id, level) ∈ listed ∧ level.toNat = depth) ↔
      ∃ table ∈ version.level depth, table.id = id := by
  obtain ⟨placed, places, rfl⟩ := mirrors
  have small : ∀ {table : SsTable fmt} {place : Nat}, table ∈ version.level place →
      (UInt32.ofNat place).toNat = place := by
    intro table place member
    rw [UInt32.toNat_ofNat', Nat.mod_eq_of_lt]
    by_contra deep
    rw [fit place (not_lt.mp deep)] at member
    cases member
  constructor
  · rintro ⟨level, member, rfl⟩
    obtain ⟨item, inPlaced, same⟩ := List.mem_map.mp member
    cases same
    have inLevel := places.mem_iff.mp inPlaced
    exact ⟨item.1, (small inLevel).symm ▸ inLevel, rfl⟩
  · rintro ⟨table, member, rfl⟩
    exact ⟨UInt32.ofNat depth, List.mem_map.mpr ⟨(table, depth), places.mem_iff.mpr member, rfl⟩,
      small member⟩

/-- **Manifest and version never diverge** in a run whose failing operations write
nothing, if no pass fails between the record of its output and the last record of its
inputs, and every flush finds what only the parked memtable holds in the tables as
well.  After every operation the manifest lists the tables of the version with their
levels, in memory and in its file, and a reopening changes no read. -/
theorem manifest_mirrors_version (sizing : BloomSizing) {options : Options}
    (positive : 1 ≤ options.maxLevels) {start : Db (byteTables sizing)}
    (opened : openNew (byteTables sizing) options = .ok start)
    (attempts : List (Command × List Verdict))
    (clean : ∀ pair ∈ attempts, ∀ verdict ∈ pair.2, verdict.Clean)
    (permitted : ∀ pair ∈ attempts, Permitted pair.1 pair.2)
    (covered : AllAttempts (fun command _ state =>
      Admitted (TableFits sizing) command state ∧ Covers command state) attempts start) :
    (∃ final, attemptAll attempts start = .ok final ∧
      (Manifest.recover final.disk.manifest).map (·.tables) = .ok final.engine.manifest.tables ∧
      (LevelsFit final.engine.version →
        (∀ id depth, (∃ level, (id, level) ∈ final.engine.manifest.tables ∧ level.toNat = depth) ↔
          ∃ table ∈ final.engine.version.level depth, table.id = id) ∧
        ∃ engine, openWith final.engine.options final.disk = .ok engine ∧
          ∀ key, (⟨final.disk, engine, []⟩ : Db (byteTables sizing)).eval (get key) =
            final.eval (get key))) ∨
    attemptAll attempts start = .error .panic ∧
      ¬ AllAttempts (fun command _ state => Safe command state) attempts start := by
  rw [openNew_eq] at opened
  obtain rfl : Db.new (byteTables sizing) options = start := Except.ok.inj opened
  have left := left_new (byteTables_sound sizing) True positive
  rcases left.attemptAll rfl (fun _ => clean) permitted
    (covered.imp fun _ _ _ meets => ⟨meets.1, fun inStep => meets.2.tended (inStep trivial)⟩) with
    ⟨final, ran, left'⟩ | panics
  · have inStep := left'.inStep trivial
    obtain ⟨shelf, kept, _⟩ := left'
    refine .inl ⟨final, ran, inStep.2, fun fit => ⟨kept.mirrored.mem_iff fit, ?_⟩⟩
    obtain ⟨engine, opened, reads⟩ := kept.reopens fit
    refine ⟨engine, opened, fun key => eval_get_congr fun valid => ?_⟩
    rw [reads key valid, kept.eval_get valid]
  · exact .inr panics

/-- Whether a run ends with a manifest that lists a table of some id in some level. -/
def endsListing (id : UInt64) (level : UInt32)
    (ended : Except Failure (Db (byteTables smallSizing))) : Bool :=
  match ended with
  | .ok db => db.engine.manifest.tables.contains (id, level)
  | .error _ => false

/-- Whether a run ends with a version that has a table of some id. -/
def endsHolding (id : UInt64) (ended : Except Failure (Db (byteTables smallSizing))) : Bool :=
  match ended with
  | .ok db => db.engine.version.tablesNewestFirst.any (·.id == id)
  | .error _ => false

/-- The first manifest append of a flush fails: manifest and version have no table, and
the value is read as before, also after a reopening. -/
theorem manifest_mirrors_version_failed_flush :
    ∃ start final, openNew (byteTables smallSizing) tinyOptions = .ok start ∧
      attemptAll [(.put [97] [49], []), (.flush, [.fail 0])] start = .ok final ∧
      (∀ id depth, (∃ level, (id, level) ∈ final.engine.manifest.tables ∧ level.toNat = depth) ↔
        ∃ table ∈ final.engine.version.level depth, table.id = id) ∧
      ∃ engine, openWith final.engine.options final.disk = .ok engine ∧
        ∀ key, (⟨final.disk, engine, []⟩ : Db (byteTables smallSizing)).eval (get key) =
          final.eval (get key) := by
  have depth : endsDepth (attemptAll [(.put [97] [49], []), (.flush, [.fail 0])]
      (Db.new (byteTables smallSizing) tinyOptions)) = some 2 := by
    decide +kernel
  have covered : AllAttempts (fun command _ state =>
      Admitted (TableFits smallSizing) command state ∧ Covers command state)
      [(.put [97] [49], []), (.flush, [.fail 0])]
      (Db.new (byteTables smallSizing) tinyOptions) := by
    refine ⟨⟨tinyTable_fits, fun full => absurd full (by decide)⟩, fun after put =>
      ⟨⟨?_, ?_⟩, fun _ _ => trivial⟩⟩
    · obtain rfl := Except.ok.inj put
      exact tinyTable_fits
    · obtain rfl := Except.ok.inj put
      exact fun _ _ _ _ parked => nomatch parked
  have permitted : ∀ pair ∈ ([(.put [97] [49], []), (.flush, [.fail 0])] :
      List (Command × List Verdict)), Permitted pair.1 pair.2 := by
    rintro pair (_ | ⟨_, _ | ⟨_, ⟨⟩⟩⟩)
    · exact List.forall_mem_nil _
    · trivial
  rcases manifest_mirrors_version smallSizing (by decide) (openNew_eq _ tinyOptions) _ (by decide)
    permitted covered with ⟨final, ran, _, mirrors⟩ | ⟨panics, _⟩
  · rw [ran] at depth
    obtain ⟨listed, reopens⟩ := mirrors
      (levelsFit_of_length (le_of_eq_of_le (Option.some.inj depth) (by norm_num)))
    exact ⟨_, final, openNew_eq _ _, ran, listed, reopens⟩
  · rw [panics] at depth
    cases depth

/-- **Manifest and version diverge.**  A pass records its output and fails in removing
its input: the manifest lists the output in level 1, the version does not have it. -/
theorem manifest_lists_unknown_output :
    ∃ start final, openNew (byteTables smallSizing) (eagerOptions 2) = .ok start ∧
      attemptAll [(.put [97] [49], []), (.flush, []),
        (.compact, [.done, .done, .done, .fail 0])] start = .ok final ∧
      (2, 1) ∈ final.engine.manifest.tables ∧
      ∀ table ∈ final.engine.version.tablesNewestFirst, table.id ≠ 2 := by
  have listed : endsListing 2 1 (attemptAll [(.put [97] [49], []), (.flush, []),
      (.compact, [.done, .done, .done, .fail 0])]
      (Db.new (byteTables smallSizing) (eagerOptions 2))) = true := by
    decide +kernel
  have unknown : endsHolding 2 (attemptAll [(.put [97] [49], []), (.flush, []),
      (.compact, [.done, .done, .done, .fail 0])]
      (Db.new (byteTables smallSizing) (eagerOptions 2))) = false := by
    decide +kernel
  cases ran : attemptAll [(.put [97] [49], []), (.flush, []),
      (.compact, [.done, .done, .done, .fail 0])]
      (Db.new (byteTables smallSizing) (eagerOptions 2)) with
  | error failure =>
      rw [ran] at listed
      cases listed
  | ok final =>
      rw [ran] at listed unknown
      refine ⟨_, final, openNew_eq _ _, ran, List.contains_iff_mem.mp listed, ?_⟩
      intro table member same
      have absent := List.any_eq_false.mp unknown table member
      simp [same] at absent

end LsmStore
