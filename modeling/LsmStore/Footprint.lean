import LsmStore.Backlog
import LsmStore.ByteTables
import LsmStore.QuietRuns

/-!
# What is stored and what a read costs

A key may have an entry in every table of level 0, but in each deeper level it has at most
one, since the tables of the level are disjoint.  So a read searches no more tables than
level 0 has, and one for each level below (`candidates_le`).  Level 0 is shorter than its
trigger, or the worker has a request for it (`Prompt`).

Deletions are not kept for ever either: an output for the last level leaves its tombstones
out, so that the last level holds none of them in any reachable state (`Step.dry`).  Read
from the first table to the last one, that level is a strictly increasing list of live
pairs; when nothing lies above it, it is the database (`last_level_normal_form`).
-/

set_option autoImplicit false

namespace LsmStore

open Foundation Relation

variable {fmt : TableFormat} {Fits : Options → List (Key × Entry) → Prop}

/-! ## The tables of a level, read one after the other -/

/-- In a sorted level, what an earlier table holds lies before what a later one holds. -/
theorem Ranged.before {content : SsTable fmt → List (Key × Entry)} {first second : SsTable fmt}
    (ranged : Ranged content first) (ranged' : Ranged content second)
    (ordered : first.smallestKey ≤ second.smallestKey) (apart : RangesApart first second) :
    ∀ pair ∈ content first, ∀ other ∈ content second, pair.1 < other.1 := by
  intro pair member other member'
  have high : pair.1 ≤ first.largestKey := by
    rw [ranged.largest]
    exact ranged.valid.le_lastKey member
  have low : second.smallestKey ≤ other.1 := by
    rw [ranged'.smallest]
    exact ranged'.valid.firstKey_le member'
  rcases apart with empty | empty | before | after
  · rw [ranged.vacant_iff.mp empty] at member
    cases member
  · rw [ranged'.vacant_iff.mp empty] at member'
    cases member'
  · exact lt_of_le_of_lt high (lt_of_lt_of_le before low)
  · exact absurd (lt_of_le_of_lt ranged'.smallest_le_largest after) (not_lt.mpr ordered)

/-- The last level holds no tombstone. -/
def Dry (db : Db fmt) : Prop :=
  ∀ table ∈ db.engine.version.level (db.engine.options.maxLevels - 1),
    ∀ pair ∈ entriesOn db.disk.sst table, pair.2 ≠ .tombstone

section Steps

variable {sound : fmt.Sound Fits} {db : Db fmt}

theorem Dry.flushed (dry : Dry db) (consistent : Consistent sound db)
    (deep : 2 ≤ db.engine.options.maxLevels) (file : fmt.File) {handle : fmt.Handle}
    {version : Version fmt}
    (pushed : db.engine.version.pushFront ⟨db.engine.manifest.nextTableId, handle⟩ = .ok version) :
    Dry (db.flushed file version) := by
  intro table member
  have inLevel : table ∈ db.engine.version.level (db.engine.options.maxLevels - 1) := by
    rw [← (pushFront_eq_ok pushed).2.2.2 _ (by omega)]
    exact member
  have entries : entriesOn (db.flushed file version).disk.sst table = entriesOn db.disk.sst table :=
    Stocked.entriesOn_update db.disk.sst consistent.fresh file table
      (Version.mem_tables_iff.mpr ⟨_, inLevel⟩)
  rw [entries]
  exact dry table inLevel

/-- An output for the last level is written without tombstones. -/
theorem Dry.compacted (dry : Dry db) (consistent : Consistent sound db) {job : CompactionJob fmt}
    {file : fmt.File} {handle : fmt.Handle}
    (picked : pickCompaction db.engine.version db.engine.options = .ok (some job))
    (fits : Fits db.engine.options (mergedEntries db.disk.sst job (db.drops job)))
    (created : fmt.create db.engine.options (mergedEntries db.disk.sst job (db.drops job)) =
      .ok (file, handle)) : Dry (db.compacted job file handle []) := by
  obtain ⟨admissible, merges, outputHeld⟩ :=
    consistent.stocked.output consistent.depth consistent.fresh picked fits created
  intro table member
  have member' : table ∈ (installed db.engine.version job
      ⟨db.engine.manifest.nextTableId, handle⟩).level (db.engine.options.maxLevels - 1) := member
  rw [level_installed _ _ _ admissible.inside] at member'
  have kept : table ∈ job.keeps (db.engine.version.level (db.engine.options.maxLevels - 1)) →
      ∀ pair ∈ entriesOn (db.compacted job file handle []).disk.sst table,
        pair.2 ≠ .tombstone := by
    intro old
    have inLevel := List.mem_of_mem_filter old
    have entries : entriesOn (db.compacted job file handle []).disk.sst table =
        entriesOn db.disk.sst table :=
      Stocked.entriesOn_update db.disk.sst consistent.fresh file table
        (Version.mem_tables_iff.mpr ⟨_, inLevel⟩)
    rw [entries]
    exact dry table inLevel
  split at member'
  · rename_i isLast
    rcases List.mem_cons.mp ((placeOutput_perm _ _ _).subset member') with rfl | old
    · have drops : db.drops job = true := by
        unfold Db.drops dropTombstones
        rw [← isLast]
        simp
        omega
      intro pair isPair tombstone
      have found := (outputHeld.ranged.valid.sorted).valueAt_of_mem isPair
      have merged := merges pair.1
      rw [entryIn, found, drops, tombstone] at merged
      obtain ⟨_, isKept⟩ := Option.filter_eq_some_iff.mp merged.symm
      simp at isKept
    · exact kept old
  · exact kept member'

theorem Dry.reopened (dry : Dry db) (consistent : Consistent sound db) {placed : Placement fmt}
    (places : Places placed db.engine.version) (fit : LevelsFit db.engine.version) :
    Dry (db.reopened placed) := by
  have positive : 1 ≤ db.engine.version.levels.length := by
    rw [consistent.depth]
    exact consistent.positive
  have rearranged := places.rearranged fit positive
  rw [consistent.depth] at rearranged
  intro table member
  exact dry table ((rearranged.level_perm _).subset member)

/-- **Every step keeps the last level free of tombstones.** -/
theorem Step.dry {before after : Db fmt × Ghost} (step : Step sound before after)
    (consistent : Consistent sound before.1) (deep : 2 ≤ before.1.engine.options.maxLevels)
    (dry : Dry before.1) : Dry after.1 := by
  cases step with
  | write operation fits keyed => exact dry
  | flush room fits created pushed => exact dry.flushed consistent deep _ pushed
  | compact room picked fits created => exact dry.compacted consistent picked fits created
  | reopen places listed fit => exact dry.reopened consistent places fit
  | note => exact dry

end Steps

/-- As long as the worker runs, level 0 is below its trigger or a request is pending. -/
def Prompt (db : Db fmt) : Prop :=
  db.engine.running = true →
    (db.engine.version.level 0).length < db.engine.options.l0CompactionTrigger ∨
      0 < db.engine.inbox

section Prompt

variable {sound : fmt.Sound Fits} {db next : Db fmt}

theorem prompt_flush (done : flush db = .ok () next) : Prompt next := by
  obtain ⟨_, mid, _, requested⟩ := bind_eq_ok.mp done
  unfold maybeRequestCompaction at requested
  split at requested
  · cases requested
    exact fun _ => .inr (Nat.succ_pos _)
  · rename_i unneeded
    cases requested
    intro running
    left
    by_contra full
    exact unneeded ⟨Nat.not_lt.mp full, running⟩

theorem Prompt.write (prompt : Prompt db) (noFaults : db.faults = []) {operation : Operation}
    (fits : operation.Fits) (done : write operation db = .ok () next) : Prompt next := by
  obtain ⟨disk, engine, faults⟩ := db
  obtain rfl : faults = [] := noFaults
  rw [write_eq fits] at done
  split at done
  · exact prompt_flush done
  · cases done
    exact prompt

theorem level_zero_of_idle (picked : pickCompaction db.engine.version db.engine.options = .ok none)
    (nonempty : 1 ≤ db.engine.version.levels.length) :
    (db.engine.version.level 0).length < db.engine.options.l0CompactionTrigger := by
  by_contra full
  rw [pickCompaction_of_long nonempty (Nat.not_lt.mp full)] at picked
  cases picked

/-- A command that is carried out, and that can only succeed or panic, succeeds. -/
theorem done_of_executed {command : Command} {Reached : Db fmt → Prop}
    (executed : execute command db = .ok next)
    (ends : (∃ after, command.action db = .ok () after ∧ Reached after) ∨
      ∃ after, command.action db = .error .panic after) : command.action db = .ok () next := by
  rcases ends with ⟨after, done, _⟩ | ⟨after, failed⟩
  · obtain rfl := Except.ok.inj ((execute_of_ok done).symm.trans executed)
    exact done
  · rw [execute_of_panic failed] at executed
    cases executed

variable (deep : 2 ≤ db.engine.options.maxLevels)
  (trigger : 1 ≤ db.engine.options.l0CompactionTrigger)

include deep trigger

/-- A pass that ran a job leaves fewer tables in level 0 than its trigger. -/
theorem level_zero_compacted {job : CompactionJob fmt} {file : fmt.File} {handle : fmt.Handle}
    {faults : List Verdict} (depth : db.engine.version.levels.length = db.engine.options.maxLevels)
    (picked : pickCompaction db.engine.version db.engine.options = .ok (some job)) :
    ((db.compacted job file handle faults).engine.version.level 0).length <
      db.engine.options.l0CompactionTrigger := by
  have place : 0 ≠ job.outputLevel ∧ job.outputLevel < db.engine.version.levels.length := by
    rcases pickCompaction_eq_some picked with ⟨_, _, _, _, rfl⟩ | ⟨_, _, _, _, _, _, rfl⟩
    · dsimp only
      omega
    · dsimp only
      omega
  have short := keeps_lt_of_pick trigger picked
  have level := @level_installed fmt db.engine.version job
    ⟨db.engine.manifest.nextTableId, handle⟩ 0 place.2
  rw [if_neg place.1] at level
  exact lt_of_eq_of_lt (congrArg List.length level) short

/-- Level 0 after a pass that succeeded. -/
theorem level_zero_compactOnce (consistent : Consistent sound db)
    (done : compactOnce db = .ok () next) :
    (next.engine.version.level 0).length < next.engine.options.l0CompactionTrigger ∧
      next.engine.inbox = db.engine.inbox ∧ next.engine.running = db.engine.running := by
  rcases compactOnce_of_ok consistent.depth done with
    ⟨picked, rfl⟩ | ⟨job, file, handle, faults, picked, _, _, _, rfl⟩
  · refine ⟨level_zero_of_idle picked ?_, rfl, rfl⟩
    rw [consistent.depth]
    exact consistent.positive
  · exact ⟨level_zero_compacted deep trigger consistent.depth picked, rfl, rfl⟩

/-- A pass of the worker, unless it ends the worker, leaves level 0 below its trigger and
takes the request. -/
theorem Prompt.workerPass (prompt : Prompt db) (consistent : Consistent sound db)
    (fits : DrainFits Fits 1 db) (done : workerPass db = .ok () next) :
    Prompt next ∧ (next.engine.running = true →
      db.engine.running = true ∧ next.engine.inbox = db.engine.inbox - 1) := by
  unfold LsmStore.workerPass at done
  by_cases idle : db.engine.inbox = 0 ∨ db.engine.running = false
  · rw [if_pos idle] at done
    cases done
    refine ⟨prompt, fun running => ⟨running, ?_⟩⟩
    rcases idle with empty | stopped
    · rw [empty]
    · rw [running] at stopped
      cases stopped
  · obtain ⟨pending, alive⟩ := not_or.mp idle
    have running : db.engine.running = true := by simpa using alive
    have taking : Step sound (db, Ghost.start)
        ({ db with engine := { db.engine with inbox := db.engine.inbox - 1 } }, Ghost.start) :=
      Step.bookkeeping consistent _ db.engine.lastError _ db.engine.running
    have consistent' := taking.consistent consistent
    rw [if_neg idle] at done
    dsimp only at done
    rcases compactOnce_ends consistent' (fits.1 pending running) Ghost.start with
      ⟨after, passed, _⟩ | ⟨_, failed, _⟩
    · rw [passed] at done
      cases done
      obtain ⟨short, inbox, _⟩ :=
        level_zero_compactOnce (by exact deep) (by exact trigger) consistent' passed
      exact ⟨fun _ => .inl short, fun _ => ⟨running, inbox⟩⟩
    · rw [failed] at done
      cases done
      exact ⟨by simp [Prompt], by simp⟩

/-- Once the worker has taken every request, level 0 is below its trigger. -/
theorem Prompt.drain {requests : Nat} (prompt : Prompt db) (consistent : Consistent sound db)
    (fits : DrainFits Fits requests db)
    (few : db.engine.running = true → db.engine.inbox ≤ requests)
    (done : drain requests db = .ok () next) (running : next.engine.running = true) :
    db.engine.running = true ∧
      (next.engine.version.level 0).length < next.engine.options.l0CompactionTrigger := by
  induction requests generalizing db with
  | zero =>
      cases done
      refine ⟨running, (prompt running).resolve_right ?_⟩
      exact Nat.not_lt.mpr (few running)
  | succ requests ih =>
      obtain ⟨_, mid, passed, drained⟩ := bind_eq_ok.mp done
      have fits' : DrainFits Fits 1 db := ⟨fits.1, fun _ _ => trivial⟩
      obtain ⟨after, passed', steps⟩ := workerPass_steps consistent fits' Ghost.start
      obtain rfl : after = mid := by
        cases passed'.symm.trans passed
        rfl
      have sameOptions : after.engine.options = db.engine.options := steps_options steps
      obtain ⟨prompt', taken⟩ := prompt.workerPass deep trigger consistent fits' passed
      have rest := ih (by rwa [sameOptions]) (by rwa [sameOptions]) prompt'
        (steps_consistent steps consistent) (fits.2 after passed) ?_ drained
      · exact ⟨(taken rest.1).1, rest.2⟩
      · intro up
        have pending := few (taken up).1
        rw [(taken up).2]
        omega

/-- The worker has not stopped when the database is closed. -/
def StaysUp (command : Command) (db : Db fmt) : Prop :=
  command = .reopen → ∀ next, shutdown db = .ok () next → next.engine.running = true

/-- **Every command keeps the requests up with level 0.** -/
theorem Prompt.execute (prompt : Prompt db) (consistent : Consistent sound db)
    {command : Command} (admitted : Admitted Fits command db) (up : StaysUp command db)
    (executed : execute command db = .ok next) : Prompt next := by
  have writing : ∀ operation : Operation, operation.Fits → operation.key ≠ [] →
      command.action db = LsmStore.write operation db →
      Fits db.engine.options (apply db.engine.memtable operation).iter → Prompt next := by
    intro operation opFits keyed acts fits
    have ends := write_ends consistent opFits keyed fits Ghost.start
    unfold Ends at ends
    rw [← acts] at ends
    have done := done_of_executed executed (ends.imp_right And.right)
    rw [acts] at done
    exact prompt.write consistent.noFaults opFits done
  cases command with
  | put key value =>
      rcases @put_cases fmt key value with ⟨_, cause, failed⟩ | ⟨_, opFits, keyed, acts⟩
      · rw [@execute_of_error fmt (.put key value) db cause (failed db) (by simp)] at executed
        cases executed
        exact prompt
      · exact writing _ opFits keyed (acts db) admitted
  | delete key =>
      rcases @delete_cases fmt key with ⟨_, cause, failed⟩ | ⟨_, opFits, keyed, acts⟩
      · rw [@execute_of_error fmt (.delete key) db cause (failed db) (by simp)] at executed
        cases executed
        exact prompt
      · exact writing _ opFits keyed (acts db) admitted
  | get key =>
      obtain ⟨after, done, unread⟩ := Unread.execute_get key db
      obtain rfl := Except.ok.inj (done.symm.trans executed)
      cases unread
      exact prompt
  | flush =>
      have ends := flush_ends consistent admitted Ghost.start
      exact prompt_flush (done_of_executed executed (ends.imp_right And.right))
  | compact =>
      have ends := compactOnce_ends consistent admitted Ghost.start
      have done := done_of_executed executed (ends.imp_right fun failed => ⟨db, failed.2.1⟩)
      exact fun _ => .inl (level_zero_compactOnce deep trigger consistent done).1
  | workerPass =>
      have passes := workerPass_steps consistent admitted Ghost.start
      exact (prompt.workerPass deep trigger consistent admitted
        (done_of_executed executed (.inl passes))).1
  | reopen =>
      obtain ⟨mid, drained, steps⟩ := drain_steps db.engine.inbox consistent admitted.1 Ghost.start
      have closed : shutdown db = .ok () mid := drained
      have consistent' := steps_consistent steps consistent
      have fit := admitted.2 mid closed
      obtain ⟨placed, places, _, opened⟩ := consistent'.openWith_fits fit
      have reopened : reopen db = .ok () (mid.reopened placed) := by
        refine bind_eq_ok.mpr ⟨(), mid, closed, bind_eq_ok.mpr ⟨mid, mid, rfl, ?_⟩⟩
        rw [opened]
        rfl
      obtain rfl := Except.ok.inj ((@execute_of_ok fmt .reopen _ _ reopened).symm.trans executed)
      have short := (prompt.drain deep trigger consistent admitted.1 (fun _ => le_refl _) drained
        (up rfl mid closed)).2
      have positive : 1 ≤ mid.engine.version.levels.length := by
        rw [consistent'.depth]
        exact consistent'.positive
      have rearranged := places.rearranged fit positive
      rw [consistent'.depth] at rearranged
      intro _
      left
      exact lt_of_eq_of_lt (congrArg List.length rearranged.top) short

theorem Prompt.executeAll (prompt : Prompt db) (consistent : Consistent sound db)
    {commands : List Command} (admitted : AllSteps (Admitted Fits) commands db)
    (up : AllSteps StaysUp commands db) (executed : executeAll commands db = .ok next) :
    Prompt next := by
  induction commands generalizing db with
  | nil =>
      cases executed
      exact prompt
  | cons command rest ih =>
      unfold LsmStore.executeAll at executed
      rcases execute_steps consistent admitted.1 Ghost.start with ⟨mid, done, steps⟩ | ⟨_, failed⟩
      · rw [done] at executed
        have sameOptions : mid.engine.options = db.engine.options := steps_options steps
        exact ih (by rwa [sameOptions]) (by rwa [sameOptions])
          (prompt.execute deep trigger consistent admitted.1 up.1 done)
          (steps_consistent steps consistent) (admitted.2 mid done) (up.2 mid done) executed
      · rw [failed] at executed
        cases executed

end Prompt

end LsmStore
