import LsmStore.ByteTables
import LsmStore.KeptRuns
import LsmStore.Shadow
import LsmStore.WriteAtomicity

/-!
# Writes that the log refused

A put or a delete fails when its record cannot be appended to the log or when the log
cannot be synced.  The memtable is then left alone, but the log may have got a part of
the record, or all of it.  A running engine does not read its log, so it goes on as if the
write had not been tried (`Backed.refused`); what the log got comes to light when the
directory is opened again.

So the writes that returned an error stay hidden as long as every reopening finds a log
that says what the memtable says (`Db.LogAgrees`).  A record that reached the log before
its sync failed breaks this: the write shows up after the next reopening.
-/

set_option autoImplicit false

namespace LsmStore

open Foundation

variable {fmt : TableFormat} {Fits : Options → List (Key × Entry) → Prop}

/-! ## Runs in which the log fails -/

/-- Only the append to the log and its sync may fail, within a put or a delete. -/
def LogMayFail : Command → List Verdict → Prop
  | .put _ _, plan | .delete _, plan => plan.length ≤ 2
  | _, plan => plan = []

/-- The write of a command that returns without an error. -/
def Command.acknowledged (command : Command) (plan : List Verdict) (db : Db fmt) :
    List Operation :=
  match (command.action : Action fmt Unit) (db.planned plan) with
  | .ok _ _ => command.operation.toList
  | .error _ _ => []

theorem Command.acknowledged_of_none {command : Command} (nothing : command.operation = none)
    (plan : List Verdict) (db : Db fmt) : command.acknowledged plan db = [] := by
  unfold acknowledged
  rw [nothing]
  split <;> rfl

/-- The writes of a run that returned without an error. -/
def acknowledgedAll : List (Command × List Verdict) → Db fmt → List Operation
  | [], _ => []
  | (command, plan) :: rest, db =>
      command.acknowledged plan db ++
        match attempt command plan db with
        | .ok after => acknowledgedAll rest after
        | .error _ => []

theorem acknowledgedAll_reopen (plan : List Verdict) (db : Db fmt) :
    acknowledgedAll [(.reopen, plan)] db = [] := by
  rw [acknowledgedAll, Command.acknowledged_of_none rfl]
  cases attempt .reopen plan db <;> rfl

/-- The log holds complete records, perhaps with a part of one more behind them, and
applying them gives every key the entry that the memtable has. -/
def Db.LogAgrees (db : Db fmt) : Prop :=
  ∃ operations rest, (∀ operation ∈ operations, operation.Fits) ∧
    db.disk.wal = records operations ++ rest ∧ IsTorn rest ∧
    ∀ key, (applyAll operations).get key = db.engine.memtable.get key

/-- A reopening finds, once the worker has finished, a log that agrees with the memtable. -/
def ReopensInAgreement (command : Command) (db : Db fmt) : Prop :=
  command = .reopen → ∀ next, shutdown db = .ok () next → next.LogAgrees

/-! ## Replayed logs -/

theorem manifest_eq_of_sameTables {manifest manifest' : Manifest}
    (next : manifest'.nextTableId = manifest.nextTableId)
    (same : List.Forall₂ (SameTable Eq) manifest.tables manifest'.tables) :
    manifest' = manifest := by
  have tables : manifest.tables = manifest'.tables := by
    refine List.forall₂_eq_eq_eq ▸ same.imp ?_
    rintro own other ⟨sameId, sameLevel⟩
    exact Prod.ext sameId.symm sameLevel
  obtain ⟨_, _⟩ := manifest
  obtain ⟨_, _⟩ := manifest'
  cases next
  cases tables
  rfl

theorem get_applyAll_ne_none {operations : List Operation} {operation : Operation}
    (member : operation ∈ operations) : (applyAll operations).get operation.key ≠ none := by
  induction operations using List.reverseRecOn with
  | nil => cases member
  | append_singleton earlier last ih =>
      rw [applyAll_concat, get_apply]
      split
      · exact Option.some_ne_none _
      · rename_i other
        rcases List.mem_append.mp member with before | isLast
        · exact ih before
        · rw [List.mem_singleton.mp isLast] at other
          exact absurd rfl other

/-- A log with the entries of a memtable without an empty key has no empty key. -/
theorem keyed_of_agrees {operations : List Operation} {memtable : MemTable}
    (valid : ValidRun memtable.iter)
    (same : ∀ key, (applyAll operations).get key = memtable.get key)
    {operation : Operation} (member : operation ∈ operations) : operation.key ≠ [] := by
  have present := get_applyAll_ne_none member
  rw [same, ← MemTable.valueAt_iter] at present
  obtain ⟨entry, found⟩ := Option.ne_none_iff_exists'.mp present
  exact valid.keysNonempty _ (mem_of_valueAt found)

theorem Db.applied_of_short (db : Db fmt) (operation : Operation) {plan : List Verdict}
    (short : plan.length ≤ 2) : db.applied operation plan = db.applied operation [] := by
  unfold Db.applied
  rw [List.drop_eq_nil_of_le short]
  rfl

section Steps

variable {sound : fmt.Sound Fits} {history : List Operation} {db : Db fmt}

namespace Backed

/-- **A write that the log refused** changes nothing but the log. -/
theorem refused (backed : Backed sound Eq False history db) (wal : Bytes) :
    Backed sound Eq False history { db with disk := { db.disk with wal := wal } } := by
  obtain ⟨shadow, shadows, consistent, shown⟩ := backed
  refine ⟨shadow, ?_, consistent, shown⟩
  cases shadows with
  | intro wal' bytes manifest log next tables recorded =>
      exact .intro wal' bytes manifest False.elim next tables recorded

/-- A write that is logged goes on as in the shadow. -/
theorem write (backed : Backed sound Eq False history db) {operation : Operation}
    (opFits : operation.Fits) (keyed : operation.key ≠ [])
    (fits : Fits db.engine.options (apply db.engine.memtable operation).iter) :
    (∃ next, write operation db = .ok () next ∧
        Backed sound Eq False (history ++ [operation]) next) ∨
      ¬ Roomy db ∧ ∃ next, LsmStore.write operation db = .error .panic next := by
  obtain ⟨shadow, shadows, consistent, shown⟩ := backed
  let ghost : Ghost := { Ghost.start with history := history }
  have fits' : Fits shadow.engine.options (apply shadow.engine.memtable operation).iter := by
    rw [shadows.engine_eq]
    exact fits
  have alike := Shadows.write (fun _ => rfl) operation db shadow shadows
  rcases write_ends consistent opFits keyed fits' ghost with
    ⟨next', done, steps⟩ | ⟨full, next', failed⟩
  · obtain ⟨next, wrote, shadows'⟩ := alike.of_ok' done
    refine .inl ⟨next, wrote, next', shadows', steps_consistent steps consistent, ?_⟩
    intro key
    have refines := steps_refines steps consistent shown key
    rwa [Ghost.history_write] at refines
  · obtain ⟨next, panicked, _⟩ := alike.of_error' failed
    exact .inr ⟨fun room => full (@Shadows.safe fmt _ _ db shadow .flush shadows room), next,
      panicked⟩

/-- **A reopening** whose log agrees with the memtable shows the history. -/
theorem reopen (backed : Backed sound Eq False history db)
    (fits : DrainFits Fits db.engine.inbox db) (reopens : ReopenFits db)
    (agrees : ∀ next, LsmStore.shutdown db = .ok () next → next.LogAgrees) :
    ∃ after, reopen db = .ok () after ∧ Backed sound Eq False history after := by
  obtain ⟨mid, closed, ⟨shadow, shadows, consistent, shown⟩, _⟩ :=
    backed.shutdown (fun _ => rfl) fits
  obtain ⟨operations, rest, opFits, isLog, torn, same⟩ := agrees mid closed
  have fit := reopens mid closed
  cases shadows with
  | @intro disk engine wal bytes manifest log next tables recorded =>
      obtain rfl : manifest = engine.manifest := manifest_eq_of_sameTables next tables
      have replayed : replay disk.wal = .ok operations :=
        replay_eq_ok_iff.mpr ⟨opFits, rest, isLog, torn⟩
      -- The shadow with the log and the memtable that the replay gives.
      have relogged : Consistent sound
          (⟨{ disk with wal := records operations, manifest := bytes },
            { engine with memtable := applyAll operations }, []⟩ : Db fmt) :=
        { consistent with
          logged := ⟨operations, fun operation member =>
            ⟨opFits operation member, keyed_of_agrees consistent.validRun same member⟩, rfl, rfl⟩ }
      obtain ⟨placed, places, listed⟩ := relogged.mirrored
      have recordable := places.recordable fit
      rw [relogged.depth] at recordable
      have held : ∀ item ∈ placed, Held sound disk.sst item.1 := fun item member =>
        relogged.stocked.held item.1 (places.mem_tables member)
      have opened := openWith_of_placement sound recorded.recover_eq listed held recordable replayed
      refine ⟨⟨disk, Engine.opened engine.options engine.manifest
        (rebuilt engine.options.maxLevels placed) (applyAll operations), []⟩, ?_, ?_⟩
      · refine bind_eq_ok.mpr ⟨(), _, closed, bind_eq_ok.mpr ⟨_, _, rfl, ?_⟩⟩
        dsimp only
        rw [opened]
        rfl
      · refine ⟨_, ?_, relogged.reopened places listed fit, ?_⟩
        · exact .intro (records operations) bytes engine.manifest False.elim rfl tables recorded
        · intro key
          rw [relogged.reading_reopened places fit, ← shown key]
          unfold Db.reading
          dsimp only
          rw [same]
          rfl

/-- A command that is refused leaves the database as it was. -/
theorem attempt_refused (backed : Backed sound Eq False history db) (command : Command)
    {cause : Error} (failed : ∀ db : Db fmt, command.action db = .error (.error cause) db)
    (stays : command ≠ .reopen) (plan : List Verdict) :
    ∃ after, attempt command plan db = .ok after ∧
      Backed sound Eq False (history ++ command.acknowledged plan db) after := by
  unfold LsmStore.attempt LsmStore.execute Command.acknowledged
  rw [failed]
  dsimp only
  rw [if_neg stays, List.append_nil]
  rw [← backed.planned_nil] at backed
  exact ⟨_, rfl, backed⟩

/-- The result of a put or a delete that writes. -/
theorem attempt_write (backed : Backed sound Eq False history db) {command : Command}
    {operation : Operation} (accepted : command.operation = some operation)
    (opFits : operation.Fits) (keyed : operation.key ≠ [])
    (acts : ∀ db : Db fmt, command.action db = LsmStore.write operation db)
    (stays : command ≠ .reopen) {plan : List Verdict} (short : plan.length ≤ 2)
    (fits : Fits db.engine.options (apply db.engine.memtable operation).iter) :
    (∃ after, attempt command plan db = .ok after ∧
        Backed sound Eq False (history ++ command.acknowledged plan db) after) ∨
      ¬ Roomy db ∧ attempt command plan db = .error .panic := by
  unfold LsmStore.attempt LsmStore.execute Command.acknowledged
  rw [acts, accepted]
  by_cases fails : PlanFails plan 2
  · obtain ⟨cause, wal, faults, failed⟩ :=
      @logAndApply_of_planFails fmt (db.planned plan) operation fails opFits
    have wrote := (congrFun (write_eq_logAndApply operation) (db.planned plan)).trans
      (bind_of_error failed)
    rw [wrote]
    dsimp only
    rw [if_neg stays, List.append_nil]
    have refused := backed.refused wal
    rw [← refused.planned_nil] at refused
    exact .inl ⟨_, rfl, refused⟩
  · -- Nothing fails, so the plan is as good as the empty one.
    have done : LsmStore.write operation (db.planned plan) = LsmStore.write operation db := by
      obtain ⟨goesOn, ends⟩ := @write_of_logged fmt db operation plan opFits fails
      obtain ⟨goesOn', ends'⟩ := @write_of_logged fmt db operation [] opFits (by simp [PlanFails])
      rw [backed.planned_nil, ← db.applied_of_short operation short] at goesOn' ends'
      by_cases full : db.Full operation
      · rw [goesOn full, goesOn' full]
      · rw [ends full, ends' full]
    rw [done]
    rcases backed.write opFits keyed fits with ⟨next, wrote, backed'⟩ | ⟨full, next, panicked⟩
    · rw [wrote]
      refine .inl ⟨_, rfl, ?_⟩
      dsimp only
      rw [backed'.planned_nil]
      exact backed'
    · rw [panicked]
      exact .inr ⟨full, rfl⟩

/-- **A command whose log may fail** adds to the history what it acknowledges. -/
theorem attempt (backed : Backed sound Eq False history db) {command : Command}
    {plan : List Verdict} (mayFail : LogMayFail command plan)
    (admitted : Admitted Fits command db) (agrees : ReopensInAgreement command db) :
    (∃ after, attempt command plan db = .ok after ∧
        Backed sound Eq False (history ++ command.acknowledged plan db) after) ∨
      ¬ Safe command db ∧ LsmStore.attempt command plan db = .error .panic := by
  have other : plan = [] → command.operation = none → command ≠ .reopen →
      (∃ after, LsmStore.attempt command plan db = .ok after ∧
          Backed sound Eq False (history ++ command.acknowledged plan db) after) ∨
        ¬ Safe command db ∧ LsmStore.attempt command plan db = .error .panic := by
    rintro rfl nothing stays
    rw [Command.acknowledged_of_none nothing, LsmStore.attempt, backed.planned_nil]
    rcases backed.execute (fun _ => rfl) stays admitted with
      ⟨next, executed, backed'⟩ | ⟨unsafe_, panicked⟩
    · rw [executed]
      refine .inl ⟨_, rfl, ?_⟩
      rw [nothing] at backed'
      rw [backed'.planned_nil]
      exact backed'
    · rw [panicked]
      exact .inr ⟨unsafe_, rfl⟩
  cases command with
  | put key value =>
      rcases @put_cases fmt key value with ⟨_, cause, failed⟩ | ⟨accepted, opFits, keyed, acts⟩
      · exact .inl (backed.attempt_refused (.put key value) failed (by simp) plan)
      · exact backed.attempt_write accepted opFits keyed acts (by simp) mayFail admitted
  | delete key =>
      rcases @delete_cases fmt key with ⟨_, cause, failed⟩ | ⟨accepted, opFits, keyed, acts⟩
      · exact .inl (backed.attempt_refused (.delete key) failed (by simp) plan)
      · exact backed.attempt_write accepted opFits keyed acts (by simp) mayFail admitted
  | get key => exact other mayFail rfl (by simp)
  | flush => exact other mayFail rfl (by simp)
  | compact => exact other mayFail rfl (by simp)
  | workerPass => exact other mayFail rfl (by simp)
  | reopen =>
      obtain rfl : plan = [] := mayFail
      obtain ⟨after, reopened, backed'⟩ := backed.reopen admitted.1 admitted.2 (agrees rfl)
      refine .inl ⟨after, ?_, ?_⟩
      · rw [LsmStore.attempt, backed.planned_nil,
          execute_of_ok (show Command.reopen.action db = .ok () after from reopened)]
        dsimp only
        rw [backed'.planned_nil]
      · rw [Command.acknowledged_of_none rfl, List.append_nil]
        exact backed'

/-- **Whole runs**: in every state a run reaches, the acknowledged writes are the history. -/
theorem attemptAll {attempts : List (Command × List Verdict)}
    (backed : Backed sound Eq False history db)
    (mayFail : ∀ pair ∈ attempts, LogMayFail pair.1 pair.2)
    (meets : AllAttempts
      (fun command _ db => Admitted Fits command db ∧ ReopensInAgreement command db) attempts db) :
    (∃ final, attemptAll attempts db = .ok final ∧
        Backed sound Eq False (history ++ acknowledgedAll attempts db) final) ∨
      LsmStore.attemptAll attempts db = .error .panic ∧
        ¬ AllAttempts (fun command _ db => Safe command db) attempts db := by
  induction attempts generalizing db history with
  | nil =>
      refine .inl ⟨db, rfl, ?_⟩
      rw [acknowledgedAll, List.append_nil]
      exact backed
  | cons pair rest ih =>
      obtain ⟨command, plan⟩ := pair
      obtain ⟨here, later⟩ := List.forall_mem_cons.mp mayFail
      rw [LsmStore.attemptAll, acknowledgedAll]
      rcases backed.attempt here meets.1.1 meets.1.2 with
        ⟨after, attempted, backed'⟩ | ⟨unsafe_, panicked⟩
      · rw [attempted]
        dsimp only
        rcases ih backed' later (meets.2 after attempted) with ends | ⟨panicked, unsafe_⟩
        · rw [List.append_assoc] at ends
          exact .inl ends
        · exact .inr ⟨panicked, fun safe => unsafe_ (safe.2 after attempted)⟩
      · rw [panicked]
        exact .inr ⟨rfl, fun safe => unsafe_ safe.1⟩

end Backed

end Steps

/-! ## Results -/

/-- **Writes that the log refused stay hidden.**  In every run in which puts and deletes may
fail because the log cannot be appended to or synced, and at whose reopenings the log agrees
with the memtable, a read returns what the writes left that returned without an error. -/
theorem refused_writes_stay_hidden (sizing : BloomSizing) {options : Options}
    (positive : 1 ≤ options.maxLevels) {start : Db (byteTables sizing)}
    (opened : openNew (byteTables sizing) options = .ok start)
    (attempts : List (Command × List Verdict))
    (mayFail : ∀ pair ∈ attempts, LogMayFail pair.1 pair.2)
    (meets : AllAttempts
      (fun command _ db => Admitted (TableFits sizing) command db ∧ ReopensInAgreement command db)
      attempts start) :
    (∃ final, attemptAll attempts start = .ok final ∧
      ∀ key, validateKey key = .ok () →
        final.eval (get key) = .ok (reference (acknowledgedAll attempts start) key)) ∨
    attemptAll attempts start = .error .panic ∧
      ¬ AllAttempts (fun command _ db => Safe command db) attempts start := by
  rw [openNew_eq (byteTables sizing)] at opened
  cases opened
  have consistent := new_consistent (byteTables_sound sizing) positive
  have backed : Backed (byteTables_sound sizing) Eq False [] (Db.new (byteTables sizing) options) :=
    Backed.of_consistent (fun _ => rfl) consistent (new_refines options)
  rcases backed.attemptAll mayFail meets with ⟨final, attempted, backed'⟩ | panics
  · exact .inl ⟨final, attempted, fun key valid => backed'.eval_get valid⟩
  · exact .inr panics

/-- A put, a put whose append breaks off after three bytes, and a reopening. -/
def brokenAppend : List (Command × List Verdict) :=
  [(.put [97] [49], []), (.put [97] [50], [.fail 3]), (.reopen, [])]

theorem overwritingTable_fits : TableFits smallSizing tinyOptions [([97], .value [50])] :=
  ⟨by unfold BlocksFit; decide +kernel, by decide +kernel, by decide +kernel, by decide +kernel⟩

/-- The database after the first of the two puts. -/
def firstPut : Db (byteTables smallSizing) :=
  (Db.new (byteTables smallSizing) tinyOptions).written (.put [97] [49])

/-- The database after the second put. -/
def secondPut : Db (byteTables smallSizing) :=
  { firstPut with
    disk :=
      { firstPut.disk with
        wal := (firstPut.disk.wal ++ record (.put [97] [50])).take (firstPut.disk.wal.length + 3) } }

theorem attempt_firstPut :
    attempt (.put [97] [49]) [] (Db.new (byteTables smallSizing) tinyOptions) = .ok firstPut := rfl

theorem attempt_secondPut : attempt (.put [97] [50]) [.fail 3] firstPut = .ok secondPut := rfl

theorem secondPut_logAgrees : secondPut.LogAgrees := by
  refine ⟨[.put [97] [49]], (record (.put [97] [50])).take 3, ?_, ?_, ?_, fun _ => rfl⟩
  · exact List.forall_mem_singleton.mpr ⟨by decide, by decide⟩
  · exact List.take_length_add_append 3
  · refine .inl (lt_of_le_of_lt (List.length_take_le _ _) ?_)
    decide

/-- The value whose append broke off is not there after the reopening. -/
theorem refused_writes_stay_hidden_torn :
    ∃ start final : Db (byteTables smallSizing),
      openNew (byteTables smallSizing) tinyOptions = .ok start ∧
      attemptAll brokenAppend start = .ok final ∧
      final.eval (get [97]) = .ok (some [49]) := by
  have opened := openNew_eq (byteTables smallSizing) tinyOptions
  have mayFail : ∀ pair ∈ brokenAppend, LogMayFail pair.1 pair.2 := by
    simp [brokenAppend, LogMayFail]
  have meets : AllAttempts
      (fun command _ db =>
        Admitted (TableFits smallSizing) command db ∧ ReopensInAgreement command db)
      brokenAppend (Db.new (byteTables smallSizing) tinyOptions) := by
    refine ⟨⟨tinyTable_fits, nofun⟩, ?_⟩
    rw [attempt_firstPut]
    rintro _ ⟨⟩
    refine ⟨⟨overwritingTable_fits, nofun⟩, ?_⟩
    rw [attempt_secondPut]
    rintro _ ⟨⟩
    refine ⟨⟨⟨trivial, ?_⟩, ?_⟩, fun _ _ => trivial⟩
    · rintro _ ⟨⟩ depth _
      exact level_new tinyOptions depth
    · rintro _ _ ⟨⟩
      exact secondPut_logAgrees
  have room : Roomy (Db.new (byteTables smallSizing) tinyOptions) := by
    change (1 : UInt64).toNat + 1 ≤ u64Max
    decide
  have safe : AllAttempts (fun command _ db => Safe command db) brokenAppend
      (Db.new (byteTables smallSizing) tinyOptions) := by
    refine ⟨room, ?_⟩
    rw [attempt_firstPut]
    rintro _ ⟨⟩
    exact ⟨room, fun _ _ => ⟨trivial, fun _ _ => trivial⟩⟩
  have acknowledged : acknowledgedAll brokenAppend (Db.new (byteTables smallSizing) tinyOptions) =
      [.put [97] [49]] := by
    rw [brokenAppend, acknowledgedAll, attempt_firstPut]
    dsimp only
    rw [acknowledgedAll, attempt_secondPut]
    dsimp only
    rw [acknowledgedAll_reopen]
    rfl
  rcases refused_writes_stay_hidden smallSizing (by decide) opened brokenAppend mayFail meets with
    ⟨final, attempted, reads⟩ | ⟨_, unsafe_⟩
  · rw [acknowledged] at reads
    exact ⟨_, final, opened, attempted, reads [97] rfl⟩
  · exact absurd safe unsafe_

/-- The new database with records in its log. -/
def Db.logging (fmt : TableFormat) (options : Options) (operations : List Operation) : Db fmt :=
  ⟨{ Disk.empty fmt with wal := records operations }, (Db.new fmt options).engine, []⟩

/-- The same database after its directory has been opened again. -/
def Db.replayed (fmt : TableFormat) (options : Options) (operations : List Operation) : Db fmt :=
  ⟨{ Disk.empty fmt with wal := records operations },
    Engine.opened options .initial (rebuilt options.maxLevels []) (applyAll operations), []⟩

theorem attempt_reopen_logging (options : Options) {operations : List Operation}
    (fits : ∀ operation ∈ operations, operation.Fits) :
    attempt .reopen [] (Db.logging fmt options operations) =
      .ok (Db.replayed fmt options operations) := by
  have replayed : replay (records operations) = .ok operations :=
    replay_eq_ok_iff.mpr ⟨fits, [], (List.append_nil _).symm, .inl (by decide)⟩
  have opened : openWith options { Disk.empty fmt with wal := records operations } =
      .ok (Engine.opened options .initial (rebuilt options.maxLevels []) (applyAll operations)) :=
    openWith_of_lands rfl rfl (List.forall_mem_nil _) (List.forall_mem_nil _) replayed
  have reopened : Command.reopen.action (Db.logging fmt options operations) =
      .ok () (Db.replayed fmt options operations) := by
    refine bind_eq_ok.mpr ⟨(), _, rfl, bind_eq_ok.mpr ⟨_, _, rfl, ?_⟩⟩
    have opens : openWith (Db.logging fmt options operations).engine.options
        (Db.logging fmt options operations).disk = _ := opened
    rw [opens]
    rfl
  rw [attempt, show (Db.logging fmt options operations).planned [] =
    Db.logging fmt options operations from rfl, execute_of_ok reopened]
  rfl

/-- **A put whose sync failed shows up after a reopening.**  The put returns an error and is
not visible; its record is in the log. -/
theorem unsynced_write_shows_up :
    ∃ start failed final : Db (byteTables smallSizing),
      openNew (byteTables smallSizing) tinyOptions = .ok start ∧
      put [97] [49] (start.planned [.done, .fail 0]) = .error ioFailure failed ∧
      failed.eval (get [97]) = .ok none ∧
      attemptAll [(.put [97] [49], [.done, .fail 0]), (.reopen, [])] start = .ok final ∧
      acknowledgedAll [(.put [97] [49], [.done, .fail 0]), (.reopen, [])] start = [] ∧
      final.eval (get [97]) = .ok (some [49]) := by
  have failed : attempt (.put [97] [49]) [.done, .fail 0]
      (Db.new (byteTables smallSizing) tinyOptions) =
        .ok (Db.logging (byteTables smallSizing) tinyOptions [.put [97] [49]]) := rfl
  have fits : ∀ operation ∈ [Operation.put [97] [49]], operation.Fits :=
    List.forall_mem_singleton.mpr ⟨by decide, by decide⟩
  have reopened := @attempt_reopen_logging (byteTables smallSizing) tinyOptions _ fits
  have attempted : attemptAll [(.put [97] [49], [.done, .fail 0]), (.reopen, [])]
      (Db.new (byteTables smallSizing) tinyOptions) =
        .ok (Db.replayed (byteTables smallSizing) tinyOptions [.put [97] [49]]) := by
    rw [attemptAll, failed]
    dsimp only
    rw [attemptAll, reopened]
    rfl
  have acknowledged : acknowledgedAll [(.put [97] [49], [.done, .fail 0]), (.reopen, [])]
      (Db.new (byteTables smallSizing) tinyOptions) = [] := by
    rw [acknowledgedAll, failed]
    dsimp only
    rw [acknowledgedAll_reopen]
    rfl
  exact ⟨Db.new _ tinyOptions, Db.logging _ tinyOptions [.put [97] [49]], _,
    openNew_eq _ tinyOptions, rfl, rfl, attempted, acknowledged, rfl⟩

end LsmStore
