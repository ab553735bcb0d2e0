import LsmStore.Failures

/-!
# The files of obsolete tables

A pass removes the file of an input only when nobody but its cleaning loop owns
the table.  While the loop runs, the pass still owns the snapshot in which it
picked its job, and the snapshot owns every input.  The file of an input is
therefore never removed, and from then on no table of the version has it.

What a successful command does to the tables is one of two things: it leaves
files and version alone (`Untouched`), or it enters one table under the next id
and takes some tables out of the version (`Enters`).  The files are those of the
version's tables exactly as long as no pass has taken a table out
(`files_reclaimed_iff`).
-/

set_option autoImplicit false

namespace LsmStore

open Foundation

variable {fmt : TableFormat}

/-! ## What a command does to the tables -/

/-- Neither the table files nor the version have changed. -/
structure Untouched (before after : Db fmt) : Prop where
  options_eq : after.engine.options = before.engine.options
  sst_eq : after.disk.sst = before.disk.sst
  version_eq : after.engine.version = before.engine.version
  next_eq : after.engine.manifest.nextTableId = before.engine.manifest.nextTableId

/-- One table has been written and entered into the version under the next id, and
some tables have been taken out of the version. -/
structure Enters (taken : SsTable fmt → Bool) (before after : Db fmt) : Prop where
  options_eq : after.engine.options = before.engine.options
  depth_eq : after.engine.version.levels.length = before.engine.version.levels.length
  next_eq : after.engine.manifest.nextTableId.toNat =
    before.engine.manifest.nextTableId.toNat + 1
  written : ∃ file, after.disk.sst =
    Function.update before.disk.sst before.engine.manifest.nextTableId (some file)
  entered : ∃ handle, ∀ table, table ∈ after.engine.version.tablesNewestFirst ↔
    table = ⟨before.engine.manifest.nextTableId, handle⟩ ∨
      table ∈ before.engine.version.tablesNewestFirst ∧ taken table = false

/-- A flush takes no table out of the version. -/
def noneTaken (_ : SsTable fmt) : Bool := false

section Commands

variable {db db' : Db fmt} {value : Unit}

/-- **A successful flush** changes no table, or enters the table of the memtable. -/
theorem flushMemtable_tables (done : flushMemtable db = .ok value db') :
    Untouched db db' ∨ Enters noneTaken db db' := by
  unfold flushMemtable at done
  obtain ⟨_, _, isState, done⟩ := bind_eq_ok.mp done
  cases isState
  split at done
  · obtain ⟨_, rfl⟩ := walSync_of_ok done
    exact .inl ⟨rfl, rfl, rfl, rfl⟩
  · obtain ⟨_, _, frozen, done⟩ := bind_eq_ok.mp done
    cases frozen
    obtain ⟨_, _, allocated, done⟩ := bind_eq_ok.mp done
    obtain ⟨rfl, room, _, rfl⟩ := nextTableId_of_ok allocated
    obtain ⟨_, _, written, done⟩ := bind_eq_ok.mp done
    obtain ⟨file, handle, _, _, rfl, rfl⟩ := createTable_of_ok written
    obtain ⟨_, _, added, done⟩ := bind_eq_ok.mp done
    obtain ⟨_, _, rfl⟩ := addTable_of_ok added
    obtain ⟨_, _, install, done⟩ := bind_eq_ok.mp done
    unfold pushFront at install
    dsimp only at install
    split at install
    · cases install
    · rename_i version pushed
      cases install
      obtain ⟨tables, depth, _⟩ := pushFront_eq_ok pushed
      obtain ⟨_, _, truncated, cleared⟩ := bind_eq_ok.mp done
      obtain ⟨_, rfl⟩ := walTruncate_of_ok truncated
      cases cleared
      refine .inr ⟨rfl, depth, toNat_succ room, ⟨file, rfl⟩, ⟨handle, fun table => ?_⟩⟩
      rw [tables, List.mem_cons]
      simp [noneTaken]

theorem flush_tables (done : flush db = .ok value db') :
    Untouched db db' ∨ Enters noneTaken db db' := by
  obtain ⟨_, mid, flushed, requested⟩ := bind_eq_ok.mp done
  have same : db'.disk = mid.disk ∧ db'.engine.options = mid.engine.options ∧
      db'.engine.version = mid.engine.version ∧ db'.engine.manifest = mid.engine.manifest := by
    unfold maybeRequestCompaction at requested
    split at requested <;> cases requested <;> exact ⟨rfl, rfl, rfl, rfl⟩
  obtain ⟨disk, options, version, manifest⟩ := same
  rcases flushMemtable_tables flushed with same | enters
  · exact .inl ⟨options.trans same.options_eq, disk ▸ same.sst_eq, version.trans same.version_eq,
      manifest ▸ same.next_eq⟩
  · exact .inr ⟨options.trans enters.options_eq, version ▸ enters.depth_eq,
      manifest ▸ enters.next_eq, disk ▸ enters.written, version ▸ enters.entered⟩

/-- A successful write logs and applies its operation and may flush. -/
theorem write_tables {operation : Operation} (done : write operation db = .ok value db') :
    Untouched db db' ∨ Enters noneTaken db db' := by
  obtain ⟨_, _, appended, done⟩ := bind_eq_ok.mp done
  obtain ⟨_, _, rfl⟩ := walAppend_of_ok appended
  obtain ⟨_, _, synced, done⟩ := bind_eq_ok.mp done
  obtain ⟨_, rfl⟩ := walSync_of_ok synced
  obtain ⟨_, _, applied, done⟩ := bind_eq_ok.mp done
  cases applied
  obtain ⟨_, _, isState, done⟩ := bind_eq_ok.mp done
  cases isState
  dsimp only at done
  split at done
  · rcases flush_tables done with same | enters
    · exact .inl ⟨same.options_eq, same.sst_eq, same.version_eq, same.next_eq⟩
    · exact .inr ⟨enters.options_eq, enters.depth_eq, enters.next_eq, enters.written,
        enters.entered⟩
  · cases done
    exact .inl ⟨rfl, rfl, rfl, rfl⟩

/-- **A successful pass** picked no job and changed nothing, or took the inputs of
its job out of the version; their files are still there. -/
theorem compactOnce_tables
    (depth : db.engine.version.levels.length = db.engine.options.maxLevels)
    (done : compactOnce db = .ok value db') :
    pickCompaction db.engine.version db.engine.options = .ok none ∧ db' = db ∨
      ∃ job, pickCompaction db.engine.version db.engine.options = .ok (some job) ∧
        Enters job.takes db db' := by
  rcases compactOnce_of_ok depth done with idle | ⟨job, file, handle, _, picked, _, room, _, rfl⟩
  · exact .inl idle
  · have inside := outputLevel_lt_of_pick depth picked
    refine .inr ⟨job, picked, rfl, ?_, toNat_succ room, ⟨file, rfl⟩, ⟨handle, fun table => ?_⟩⟩
    · simp [Db.compacted, installed]
    · exact mem_tables_installed db.engine.version job _ inside

end Commands

/-! ## Accounting for the files -/

/-- Every table of the version has its file, and every file has an id that has
been given out. -/
structure Accounted (db : Db fmt) : Prop where
  depth : db.engine.version.levels.length = db.engine.options.maxLevels
  present : ∀ table ∈ db.engine.version.tablesNewestFirst, db.disk.sst table.id ≠ none
  below : ∀ id, db.disk.sst id ≠ none → id.toNat < db.engine.manifest.nextTableId.toNat

/-- The table files are exactly those of the tables of the version. -/
def Tidy (db : Db fmt) : Prop :=
  ∀ id, db.disk.sst id ≠ none ↔
    ∃ table ∈ db.engine.version.tablesNewestFirst, table.id = id

section Accounting

variable {before after : Db fmt}

theorem Untouched.accounted (same : Untouched before after) (accounted : Accounted before) :
    Accounted after where
  depth := by rw [same.version_eq, same.options_eq, accounted.depth]
  present := by
    rw [same.version_eq, same.sst_eq]
    exact accounted.present
  below := by
    rw [same.sst_eq, same.next_eq]
    exact accounted.below

theorem Untouched.tidy_iff (same : Untouched before after) : Tidy after ↔ Tidy before := by
  unfold Tidy
  rw [same.sst_eq, same.version_eq]

namespace Enters

variable {taken : SsTable fmt → Bool}

/-- Only the file of the entered table is new. -/
theorem file_iff (enters : Enters taken before after) (id : UInt64) :
    after.disk.sst id ≠ none ↔
      id = before.engine.manifest.nextTableId ∨ before.disk.sst id ≠ none := by
  obtain ⟨file, written⟩ := enters.written
  rw [written, Function.update_apply]
  by_cases isNew : id = before.engine.manifest.nextTableId <;> simp [isNew]

/-- The ids of the version's tables are the new one and those that stay. -/
theorem id_iff (enters : Enters taken before after) (id : UInt64) :
    (∃ table ∈ after.engine.version.tablesNewestFirst, table.id = id) ↔
      id = before.engine.manifest.nextTableId ∨
        ∃ table ∈ before.engine.version.tablesNewestFirst, taken table = false ∧ table.id = id := by
  obtain ⟨handle, entered⟩ := enters.entered
  constructor
  · rintro ⟨table, member, rfl⟩
    rcases (entered table).mp member with rfl | ⟨member, stays⟩
    · exact .inl rfl
    · exact .inr ⟨table, member, stays, rfl⟩
  · rintro (rfl | ⟨table, member, stays, rfl⟩)
    · exact ⟨_, (entered _).mpr (.inl rfl), rfl⟩
    · exact ⟨table, (entered table).mpr (.inr ⟨member, stays⟩), rfl⟩

theorem accounted (enters : Enters taken before after) (accounted : Accounted before) :
    Accounted after where
  depth := by rw [enters.depth_eq, enters.options_eq, accounted.depth]
  present := by
    intro table member
    refine (enters.file_iff _).mpr ?_
    rcases (enters.id_iff table.id).mp ⟨table, member, rfl⟩ with isNew | ⟨old, member, _, same⟩
    · exact .inl isNew
    · exact .inr (same ▸ accounted.present old member)
  below := by
    intro id exists_
    rw [enters.next_eq]
    rcases (enters.file_iff id).mp exists_ with rfl | exists_
    · exact Nat.lt_succ_self _
    · exact Nat.lt_succ_of_lt (accounted.below id exists_)

/-- **The directory is tidy** after a table has been entered exactly if it was tidy
before and no table was taken out. -/
theorem tidy_iff (enters : Enters taken before after) (accounted : Accounted before)
    (byId : ∀ first second, first.id = second.id → taken first = taken second) :
    Tidy after ↔ Tidy before ∧
      ∀ table ∈ before.engine.version.tablesNewestFirst, taken table = false := by
  have unused : before.disk.sst before.engine.manifest.nextTableId = none := by
    by_contra exists_
    exact Nat.lt_irrefl _ (accounted.below _ exists_)
  constructor
  · intro tidy
    -- a file that was there is that of a table which stays
    have stays : ∀ id, before.disk.sst id ≠ none →
        ∃ table ∈ before.engine.version.tablesNewestFirst, taken table = false ∧ table.id = id := by
      intro id exists_
      have owned := (tidy id).mp ((enters.file_iff id).mpr (.inr exists_))
      rcases (enters.id_iff id).mp owned with rfl | kept
      · exact absurd unused exists_
      · exact kept
    refine ⟨fun id => ⟨fun exists_ => ?_, ?_⟩, fun table member => ?_⟩
    · obtain ⟨table, member, _, same⟩ := stays id exists_
      exact ⟨table, member, same⟩
    · rintro ⟨table, member, rfl⟩
      exact accounted.present table member
    · obtain ⟨kept, _, stay, same⟩ := stays table.id (accounted.present table member)
      rw [← byId kept table same, stay]
  · rintro ⟨tidy, stay⟩ id
    rw [enters.file_iff, enters.id_iff, tidy id]
    refine or_congr Iff.rfl ⟨?_, ?_⟩
    · rintro ⟨table, member, same⟩
      exact ⟨table, member, stay table member, same⟩
    · rintro ⟨table, member, _, same⟩
      exact ⟨table, member, same⟩

end Enters

theorem CompactionJob.takes_congr (job : CompactionJob fmt) (first second : SsTable fmt)
    (same : first.id = second.id) : job.takes first = job.takes second := by
  rw [CompactionJob.takes, CompactionJob.takes, same]

/-- A picked job takes no table out of the version exactly if it has no inputs. -/
theorem takes_none_iff {version : Version fmt} {options : Options} {job : CompactionJob fmt}
    (picked : pickCompaction version options = .ok (some job)) :
    (∀ table ∈ version.tablesNewestFirst, job.takes table = false) ↔ job.inputs = [] := by
  constructor
  · intro stay
    refine List.eq_nil_iff_forall_not_mem.mpr fun input isInput => ?_
    have taken := CompactionJob.takes_of_mem isInput
    rw [stay input (inputs_mem_of_pick picked input isInput)] at taken
    cases taken
  · intro empty table _
    simp [CompactionJob.takes, empty]

end Accounting

/-! ## Runs without failures -/

/-- Runs commands one after the other and stops at the first that fails. -/
def runAll : List Command → Action fmt Unit
  | [] => return ()
  | command :: rest => do
      command.action
      runAll rest

/-- The commands that write, flush and compact. -/
def Command.direct : Command → Bool
  | .put _ _ | .delete _ | .flush | .compact => true
  | .get _ | .workerPass | .reopen => false

/-- A pass finds no job, or a job without inputs. -/
def TakesNothing (command : Command) (db : Db fmt) : Prop :=
  command = .compact → ∀ job, pickCompaction db.engine.version db.engine.options = .ok (some job) →
    job.inputs = []

/-- One command keeps the account, and keeps the directory tidy exactly if it takes
no table out of the version. -/
theorem step_tidy_iff {command : Command} {db next : Db fmt} (direct : command.direct = true)
    (accounted : Accounted db) (done : command.action db = .ok () next) :
    Accounted next ∧ (Tidy next ↔ Tidy db ∧ TakesNothing command db) := by
  have writes : command ≠ .compact → Untouched db next ∨ Enters noneTaken db next →
      Accounted next ∧ (Tidy next ↔ Tidy db ∧ TakesNothing command db) := by
    intro other change
    have nothing : TakesNothing command db := fun isPass => absurd isPass other
    rcases change with same | enters
    · exact ⟨same.accounted accounted, by rw [same.tidy_iff, and_iff_left nothing]⟩
    · refine ⟨enters.accounted accounted, ?_⟩
      rw [enters.tidy_iff accounted fun _ _ _ => rfl, and_iff_left nothing]
      exact and_iff_left fun _ _ => rfl
  cases command with
  | put key value =>
      refine writes nofun ?_
      rcases @put_cases fmt key value with ⟨_, _, refused⟩ | ⟨_, _, _, isWrite⟩
      · rw [Command.action, refused] at done
        cases done
      · rw [Command.action, isWrite] at done
        exact write_tables done
  | delete key =>
      refine writes nofun ?_
      rcases @delete_cases fmt key with ⟨_, _, refused⟩ | ⟨_, _, _, isWrite⟩
      · rw [Command.action, refused] at done
        cases done
      · rw [Command.action, isWrite] at done
        exact write_tables done
  | flush => exact writes nofun (flush_tables done)
  | compact =>
      rcases compactOnce_tables accounted.depth done with ⟨idle, rfl⟩ | ⟨job, picked, enters⟩
      · refine ⟨accounted, (and_iff_left ?_).symm⟩
        intro _ job picked
        rw [idle] at picked
        cases picked
      · refine ⟨enters.accounted accounted, ?_⟩
        rw [enters.tidy_iff accounted job.takes_congr, takes_none_iff picked]
        refine and_congr_right fun _ => ⟨fun empty _ other isOther => ?_, fun nothing => ?_⟩
        · rw [picked] at isOther
          cases isOther
          exact empty
        · exact nothing rfl job picked
  | get key => cases direct
  | workerPass => cases direct
  | reopen => cases direct

/-- A new database has no files and no tables. -/
theorem new_accounted {options : Options} {start : Db fmt}
    (opened : openNew fmt options = .ok start) : Accounted start ∧ Tidy start := by
  rw [openNew_eq] at opened
  obtain rfl : Db.new fmt options = start := Except.ok.inj opened
  refine ⟨⟨length_levels_rebuilt, ?_, fun id exists_ => absurd rfl exists_⟩, fun id => ?_⟩
  · rw [tables_new]
    exact List.forall_mem_nil _
  · rw [tables_new]
    exact ⟨fun exists_ => absurd rfl exists_, by simp⟩

/-- A run keeps the directory tidy exactly if none of its commands takes a table out. -/
theorem run_tidy_iff {commands : List Command} {db final : Db fmt}
    (direct : ∀ command ∈ commands, command.direct = true) (accounted : Accounted db)
    (ran : runAll commands db = .ok () final) :
    Tidy final ↔ Tidy db ∧ AllSteps TakesNothing commands db := by
  induction commands generalizing db with
  | nil =>
      cases ran
      exact (and_iff_left trivial).symm
  | cons command rest ih =>
      obtain ⟨_, next, done, ran⟩ := bind_eq_ok.mp ran
      obtain ⟨kept, tidy⟩ := step_tidy_iff (direct command List.mem_cons_self) accounted done
      have executed : execute command db = .ok next := execute_of_ok done
      rw [ih (fun other member => direct other (List.mem_cons_of_mem _ member)) kept ran, tidy,
        and_assoc]
      refine and_congr_right fun _ => and_congr_right fun _ => ⟨fun later other same => ?_, ?_⟩
      · rw [executed] at same
        cases same
        exact later
      · exact fun later => later next executed

/-- **The files of obsolete tables stay.**  After any successful run of puts, deletes,
flushes and passes on a new database, the table files are exactly those of the
tables of the version if and only if no pass of the run had a table to take out. -/
theorem files_reclaimed_iff (fmt : TableFormat) {options : Options} {start final : Db fmt}
    {commands : List Command} (opened : openNew fmt options = .ok start)
    (direct : ∀ command ∈ commands, command.direct = true)
    (ran : runAll commands start = .ok () final) :
    Tidy final ↔ AllSteps TakesNothing commands start := by
  obtain ⟨accounted, tidy⟩ := new_accounted opened
  rw [run_tidy_iff direct accounted ran]
  exact and_iff_right tidy

/-- Whether a run succeeds and leaves a file of some id. -/
def fileStays (id : UInt64) (ended : EStateM.Result Failure (Db smallTables) Unit) : Bool :=
  match ended with
  | .ok _ db => (db.disk.sst id).isSome
  | .error _ _ => false

/-- Whether a run succeeds and leaves a table of some id in the version. -/
def tableListed (id : UInt64) (ended : EStateM.Result Failure (Db smallTables) Unit) : Bool :=
  match ended with
  | .ok _ db => db.engine.version.tablesNewestFirst.any (·.id == id)
  | .error _ _ => false

theorem exists_of_fileStays {id : UInt64}
    {ended : EStateM.Result Failure (Db smallTables) Unit} (stays : fileStays id ended = true) :
    ∃ db, ended = .ok () db ∧ db.disk.sst id ≠ none := by
  cases ended with
  | ok value db => exact ⟨db, rfl, Option.isSome_iff_ne_none.mp stays⟩
  | error failure db => cases stays

/-- The eager options, with passes that start on an empty level 0. -/
def restlessOptions : Options := { eagerOptions 2 with l0CompactionTrigger := 0 }

/-- A pass over an empty database has no inputs: it enters an empty table, and the
directory holds the file of this table and no other. -/
theorem files_reclaimed_iff_empty_pass :
    ∃ final, runAll [.compact] (Db.new smallTables restlessOptions) = .ok () final ∧
      final.disk.sst 1 ≠ none ∧ Tidy final := by
  have filed : fileStays 1 (runAll [.compact] (Db.new smallTables restlessOptions)) = true := by
    decide +kernel
  obtain ⟨final, ran, exists_⟩ := exists_of_fileStays filed
  refine ⟨final, ran, exists_, ?_⟩
  refine (files_reclaimed_iff smallTables (openNew_eq _ _) (by decide) ran).mpr ⟨?_, ?_⟩
  · intro _ job picked
    cases picked
    rfl
  · exact fun _ _ => trivial

/-- One value is stored, flushed and compacted: the file of the flushed table stays,
although the pass has taken the table out of the version. -/
theorem files_reclaimed_leftover :
    ∃ start final, openNew smallTables (eagerOptions 2) = .ok start ∧
      runAll [.put [97] [49], .flush, .compact] start = .ok () final ∧ ¬ Tidy final := by
  have filed : fileStays 1 (runAll [.put [97] [49], .flush, .compact]
      (Db.new smallTables (eagerOptions 2))) = true := by
    decide +kernel
  have left : tableListed 1 (runAll [.put [97] [49], .flush, .compact]
      (Db.new smallTables (eagerOptions 2))) = false := by
    decide +kernel
  obtain ⟨final, ran, exists_⟩ := exists_of_fileStays filed
  refine ⟨_, final, openNew_eq _ _, ran, fun tidy => ?_⟩
  obtain ⟨table, member, isFirst⟩ := (tidy 1).mp exists_
  rw [ran] at left
  have absent := List.any_eq_false.mp left table member
  simp [isFirst] at absent

end LsmStore
