import LsmStore.ByteTables
import LsmStore.Kept
import LsmStore.Sturdy

/-!
# Writes, all or nothing

A write logs, syncs and applies its operation, and then flushes a memtable that has
become too large.  Up to the sync a failure leaves everything that can be read as it
was.  After that the operation is applied, and a flush that fails makes the write
return an error although the operation stays visible; and a flush, whether it
succeeds or fails, replaces the frozen memtable that an earlier failed flush has
parked.

So a write is all or nothing exactly when it does not get as far as a flush, or the
flush panics, or the parked memtable hides nothing that the tables do not show as well
and, if the flush fails, the operation writes what its key already reads
(`write_atomic_iff`).  That holds in every state that a process can get into, with any
file operation failing before, over as many restarts as one likes.
-/

set_option autoImplicit false

namespace LsmStore

open Foundation

variable {fmt : TableFormat} {Fits : Options → List (Key × Entry) → Prop}

/-! ## Plans and their first verdicts -/

/-- One of the next file operations fails. -/
def PlanFails (plan : List Verdict) (operations : Nat) : Prop :=
  ∃ progress, .fail progress ∈ plan.take operations

theorem not_planFails_zero (plan : List Verdict) : ¬ PlanFails plan 0 := by
  rintro ⟨progress, member⟩
  cases member

theorem PlanFails.mono {plan : List Verdict} {fewer more : Nat} (le : fewer ≤ more)
    (fails : PlanFails plan fewer) : PlanFails plan more := by
  obtain ⟨progress, member⟩ := fails
  exact ⟨progress, (List.take_prefix_take_left le).subset member⟩

/-- A file operation that has passed is not the one that fails. -/
theorem Db.Passed.planFails_iff {db db' : Db fmt} (passed : db.Passed db') (operations : Nat) :
    PlanFails db.faults (operations + 1) ↔ PlanFails db'.faults operations := by
  rcases passed with ⟨before, after⟩ | isPlan
  · rw [before, after]
    simp [PlanFails]
  · rw [isPlan]
    simp [PlanFails]

/-- The next file operation fails. -/
def Db.Stopped (db : Db fmt) : Prop := ∃ progress rest, db.faults = .fail progress :: rest

theorem Db.Stopped.planFails {db : Db fmt} (stopped : db.Stopped) (operations : Nat) :
    PlanFails db.faults (operations + 1) := by
  obtain ⟨progress, rest, isPlan⟩ := stopped
  exact ⟨progress, by rw [isPlan]; exact List.mem_cons_self⟩

theorem walTruncate_stopped {db db' : Db fmt} {failure : Failure}
    (failed : walTruncate db = .error failure db') : db.Stopped := by
  obtain ⟨disk, engine, faults⟩ := db
  cases faults with
  | nil => cases failed
  | cons verdict rest =>
      cases verdict with
      | done => cases failed
      | fail progress => exact ⟨progress, rest, rfl⟩

theorem createTable_stopped {id : UInt64} {entries : List (Key × Entry)} {db db' : Db fmt}
    {failure : Failure} {made : fmt.File × fmt.Handle}
    (created : fmt.create db.engine.options entries = .ok made)
    (failed : createTable id entries db = .error failure db') : db.Stopped := by
  obtain ⟨disk, engine, faults⟩ := db
  unfold createTable at failed
  rw [created] at failed
  cases faults with
  | nil => cases failed
  | cons verdict rest =>
      cases verdict with
      | done => cases failed
      | fail progress => exact ⟨progress, rest, rfl⟩

theorem walAppend_passed {operation : Operation} {db db' : Db fmt} {value : Unit}
    (done : walAppend operation db = .ok value db') : db.Passed db' := by
  obtain ⟨disk, engine, faults⟩ := db
  unfold walAppend at done
  split at done
  · cases done
  · cases faults with
    | nil => cases done; exact .inl ⟨rfl, rfl⟩
    | cons verdict rest =>
        cases verdict with
        | done => cases done; exact .inr rfl
        | fail progress => cases done

theorem walSync_passed {db db' : Db fmt} {value : Unit} (done : walSync db = .ok value db') :
    db.Passed db' := by
  obtain ⟨disk, engine, faults⟩ := db
  cases faults with
  | nil => cases done; exact .inl ⟨rfl, rfl⟩
  | cons verdict rest =>
      cases verdict with
      | done => cases done; exact .inr rfl
      | fail progress => cases done

theorem walTruncate_passed {db db' : Db fmt} {value : Unit}
    (done : walTruncate db = .ok value db') : db.Passed db' := by
  obtain ⟨disk, engine, faults⟩ := db
  cases faults with
  | nil => cases done; exact .inl ⟨rfl, rfl⟩
  | cons verdict rest =>
      cases verdict with
      | done => cases done; exact .inr rfl
      | fail progress =>
          match progress, done with
          | 0, done => cases done
          | _ + 1, done => cases done

/-! ## Flushes -/

/-- How many file operations a flush gets to: with no level to put its table into it
panics before it empties the log. -/
def Db.flushOperations (db : Db fmt) : Nat := if db.engine.version.levels = [] then 3 else 4

/-- The flush panics: no id is left, or there is no level 0 and nothing fails before
the table is to be put into it. -/
def Db.Doomed (db : Db fmt) (plan : List Verdict) : Prop :=
  ¬ Roomy db ∨ db.engine.version.levels = [] ∧ ¬ PlanFails plan 3

/-- What a flush leaves that did not panic: reads see the memtable it took, and then
the tables as they were. -/
structure AfterFlush (sound : fmt.Sound Fits) (db after : Db fmt) : Prop where
  rooted : Rooted sound after
  reading : ∀ key, after.reading key =
    visible ((db.engine.memtable.get key).or (db.tableLookup key))

/-- A flush of `db` that has not yet put its table into the version, after some file
operations that have passed. -/
structure Freezing (sound : fmt.Sound Fits) (db : Db fmt) (operations : Nat) (mid : Db fmt) :
    Prop where
  rooted : Rooted sound mid
  memtable : mid.engine.memtable = MemTable.new
  immutable : mid.engine.immutable = some (MemTable.ofRun db.engine.memtable.iter)
  version : mid.engine.version = db.engine.version
  options : mid.engine.options = db.engine.options
  grown : Extends db mid
  plan : ∀ more, PlanFails db.faults (operations + more) ↔ PlanFails mid.faults more

/-- How a flush fails. -/
def FlushFails (sound : fmt.Sound Fits) (db : Db fmt) (failure : Failure) (after : Db fmt) :
    Prop :=
  match failure with
  | .panic => db.Doomed db.faults
  | .error _ => Roomy db ∧ PlanFails db.faults db.flushOperations ∧ AfterFlush sound db after

/-- Files that are only added leave the lookup through held tables as it is. -/
theorem Rooted.tableLookup_eq {sound : fmt.Sound Fits} {db mid : Db fmt}
    (rooted : Rooted sound db) (grown : Extends db mid)
    (version : mid.engine.version = db.engine.version) (key : Key) :
    mid.tableLookup key = db.tableLookup key := by
  rw [Db.tableLookup, Db.tableLookup, version]
  refine lookupIn_congr (fun table member => entriesOn_congr ?_) key
  obtain ⟨file, present, _⟩ := rooted.held table member
  exact (grown.files _ _ present).trans present.symm

namespace Freezing

variable {sound : fmt.Sound Fits} {db mid : Db fmt} {operations : Nat}

theorem get_parked (freezing : Freezing sound db operations mid) (key : Key) :
    mid.engine.immutable.bind (·.get key) = db.engine.memtable.get key := by
  rw [freezing.immutable, Option.bind_some, MemTable.get_ofRun (MemTable.iter_sorted _),
    MemTable.valueAt_iter]

/-- A step that only changes files, the manifest and the plan leaves a flush that can
be given up. -/
theorem afterFlush (freezing : Freezing sound db operations mid) (rooted : Rooted sound db)
    {after : Db fmt} (rooted' : Rooted sound after) (grown : Extends mid after)
    (memtable : after.engine.memtable = mid.engine.memtable)
    (immutable : after.engine.immutable = mid.engine.immutable)
    (version : after.engine.version = mid.engine.version) : AfterFlush sound db after := by
  refine ⟨rooted', fun key => ?_⟩
  rw [Db.reading, memtable, immutable, freezing.memtable, freezing.get_parked,
    freezing.rooted.tableLookup_eq grown version,
    rooted.tableLookup_eq freezing.grown freezing.version]
  rfl

/-- A step that passes and only changes files, the manifest and the plan. -/
theorem goOn (freezing : Freezing sound db operations mid) {after : Db fmt}
    (rooted : Rooted sound after) (grown : Extends mid after)
    (memtable : after.engine.memtable = mid.engine.memtable)
    (immutable : after.engine.immutable = mid.engine.immutable)
    (version : after.engine.version = mid.engine.version)
    (options : after.engine.options = mid.engine.options) (passed : mid.Passed after) :
    Freezing sound db (operations + 1) after where
  rooted := rooted
  memtable := memtable.trans freezing.memtable
  immutable := immutable.trans freezing.immutable
  version := version.trans freezing.version
  options := options.trans freezing.options
  grown := ⟨fun id file present => grown.files id file (freezing.grown.files id file present),
    le_trans freezing.grown.next grown.next⟩
  plan more := by
    rw [Nat.add_assoc, Nat.add_comm 1 more, freezing.plan (more + 1)]
    exact passed.planFails_iff more

/-- The file operation that fails is one of the flush. -/
theorem planFails (freezing : Freezing sound db operations mid) (stopped : mid.Stopped)
    (few : operations < 3) : PlanFails db.faults db.flushOperations := by
  refine ((freezing.plan 1).mpr (stopped.planFails 0)).mono ?_
  unfold Db.flushOperations
  split <;> omega

end Freezing

section Flush

variable {sound : fmt.Sound Fits} {db mid : Db fmt}

/-- The database right after the memtable has been frozen. -/
theorem Rooted.freezing (rooted : Rooted sound db) : Freezing sound db 0 db.frozen where
  rooted := rooted.frame rfl rfl rfl rfl (List.forall_mem_nil _)
  memtable := rfl
  immutable := rfl
  version := rfl
  options := rfl
  grown := .of_eq rfl rfl
  plan more := by rw [Nat.zero_add]; rfl

theorem Rooted.yields_nextTableId (rooted : Rooted sound db) :
    Yields nextTableId db.frozen
      (fun id mid => id = db.engine.manifest.nextTableId ∧ Roomy db ∧ mid.Reserved id ∧
        mid.engine.manifest.tables = db.engine.manifest.tables ∧ Freezing sound db 1 mid)
      (FlushFails sound db) := by
  have freezing := rooted.freezing
  refine Yields.intro ?_ ?_
  · intro id mid done
    have passed := nextTableId_passed done
    obtain ⟨isNext, _, grown, rooted', reserved⟩ := freezing.rooted.of_nextTableId done
    obtain ⟨_, room, faults, rfl⟩ := nextTableId_of_ok done
    have roomy : Roomy db := by
      rw [isNext] at room
      exact room
    exact ⟨isNext, roomy, reserved, rfl, freezing.goOn rooted' grown rfl rfl rfl rfl passed⟩
  · intro failure after failed
    obtain ⟨_, grown, rooted'⟩ := freezing.rooted.of_nextTableId_error failed
    rcases nextTableId_of_error failed with
      ⟨rfl, full, _⟩ | ⟨rfl, room, progress, faults, isPlan, rfl⟩
    · exact .inl full
    · exact ⟨room, freezing.planFails ⟨progress, faults, isPlan⟩ (by decide),
        freezing.afterFlush rooted rooted' grown rfl rfl rfl⟩

theorem Freezing.yields_createTable (freezing : Freezing sound db 1 mid) (rooted : Rooted sound db)
    (room : Roomy db) {id : UInt64} (reserved : mid.Reserved id)
    (fits : Fits db.engine.options db.engine.memtable.iter) :
    Yields (createTable id db.engine.memtable.iter) mid
      (fun table after => table.id = id ∧ Held sound after.disk.sst table ∧
        entriesOn after.disk.sst table = db.engine.memtable.iter ∧
        after.engine.manifest = mid.engine.manifest ∧ Freezing sound db 2 after)
      (FlushFails sound db) := by
  have fits' : Fits mid.engine.options db.engine.memtable.iter := by
    rw [freezing.options]
    exact fits
  obtain ⟨file, handle, created, holds⟩ := sound.create_ok rooted.valid fits'
  refine Yields.intro ?_ ?_
  · intro table after done
    have passed := createTable_passed done
    obtain ⟨isId, _, grown, rooted', held⟩ :=
      freezing.rooted.of_createTable reserved rooted.valid fits' done
    obtain ⟨made, holder, faults, isMade, rfl, rfl⟩ := createTable_of_ok done
    cases created.symm.trans isMade
    exact ⟨isId, held, entriesOn_eq sound (Function.update_self ..) holds, rfl,
      freezing.goOn rooted' grown rfl rfl rfl rfl passed⟩
  · intro failure after failed
    have stopped := createTable_stopped created failed
    obtain ⟨_, grown, rooted'⟩ :=
      freezing.rooted.of_createTable_error reserved rooted.valid fits' failed
    rcases createTable_of_error failed with
      ⟨refused, _⟩ | ⟨_, _, _, rfl, disk, faults, rfl, _⟩
    · cases created.symm.trans refused
    · exact ⟨room, freezing.planFails stopped (by decide),
        freezing.afterFlush rooted rooted' grown rfl rfl rfl⟩

theorem Freezing.yields_addTable (freezing : Freezing sound db 2 mid) (rooted : Rooted sound db)
    (room : Roomy db) {id : UInt64} (unlisted : mid.engine.manifest.lists id = false)
    (below : id.toNat < mid.engine.manifest.nextTableId.toNat) :
    Yields (addTable id 0) mid
      (fun _ after => after.disk.sst = mid.disk.sst ∧ Freezing sound db 3 after)
      (FlushFails sound db) := by
  refine Yields.intro ?_ ?_
  · intro _ after done
    have passed := addTable_passed done
    obtain ⟨files, grown, rooted'⟩ := freezing.rooted.of_addTable below done
    obtain ⟨_, faults, rfl⟩ := addTable_of_ok done
    exact ⟨files, freezing.goOn rooted' grown rfl rfl rfl rfl passed⟩
  · intro failure after failed
    obtain ⟨_, grown, rooted'⟩ := freezing.rooted.of_addTable_error failed
    rcases addTable_of_error failed with ⟨_, listed, _⟩ | ⟨rfl, progress, faults, isPlan, rfl⟩
    · rw [unlisted] at listed
      cases listed
    · exact ⟨room, freezing.planFails ⟨progress, faults, isPlan⟩ (by decide),
        freezing.afterFlush rooted rooted' grown rfl rfl rfl⟩

/-- The table is in the version, and reads see it and the parked memtable. -/
structure Pushed (sound : fmt.Sound Fits) (db mid : Db fmt) : Prop where
  rooted : Rooted sound mid
  memtable : mid.engine.memtable = MemTable.new
  immutable : mid.engine.immutable = some (MemTable.ofRun db.engine.memtable.iter)
  lookup : ∀ key, mid.tableLookup key =
    (db.engine.memtable.get key).or (db.tableLookup key)
  levelled : db.engine.version.levels ≠ []
  plan : PlanFails db.faults 4 ↔ PlanFails mid.faults 1

theorem Freezing.yields_pushFront (freezing : Freezing sound db 3 mid) (rooted : Rooted sound db)
    {table : SsTable fmt} (held : Held sound mid.disk.sst table)
    (entries : entriesOn mid.disk.sst table = db.engine.memtable.iter) :
    Yields (pushFront table) mid (fun _ after => Pushed sound db after) (FlushFails sound db) := by
  refine Yields.intro ?_ ?_
  · intro _ after done
    obtain ⟨_, rooted'⟩ := freezing.rooted.of_pushFront held done
    unfold pushFront at done
    split at done
    · cases done
    · rename_i version pushed
      cases done
      refine ⟨rooted', freezing.memtable, freezing.immutable, fun key => ?_, fun none => ?_,
        freezing.plan 1⟩
      · rw [← rooted.tableLookup_eq freezing.grown freezing.version key]
        change lookupIn _ version.tablesNewestFirst key = _
        rw [(pushFront_eq_ok pushed).1, lookupIn, List.findSome?_cons, entryIn, entries,
          MemTable.valueAt_iter]
        cases db.engine.memtable.get key <;> rfl
      · have depth := (pushFront_eq_ok pushed).2.1
        have front := (pushFront_eq_ok pushed).2.2.1
        rw [freezing.version, none] at depth
        rw [Version.level_of_le (show version.levels.length ≤ 0 from le_of_eq depth)] at front
        cases front
  · intro failure after failed
    by_cases none : mid.engine.version.levels = []
    · have isPanic : failure = .panic := by
        unfold pushFront Version.pushFront at failed
        rw [none] at failed
        cases failed
        rfl
      rw [isPanic]
      refine .inr ⟨freezing.version ▸ none, fun fails => ?_⟩
      exact not_planFails_zero _ ((freezing.plan 0).mp fails)
    · obtain ⟨version, pushed⟩ := pushFront_ok none table
      unfold pushFront at failed
      rw [pushed] at failed
      cases failed

theorem Pushed.reading (pushed : Pushed sound db mid) (key : Key) :
    mid.reading key = visible ((db.engine.memtable.get key).or (db.tableLookup key)) := by
  rw [Db.reading, pushed.memtable, pushed.immutable, pushed.lookup, Option.bind_some,
    MemTable.get_ofRun (MemTable.iter_sorted _), MemTable.valueAt_iter]
  cases db.engine.memtable.get key <;> rfl

/-- **How a flush ends**: which of the file operations decides it, and what reads see
afterwards, unless it panics. -/
theorem Rooted.yields_flushMemtable (rooted : Rooted sound db)
    (filled : db.engine.memtable.isEmpty = false)
    (fits : Fits db.engine.options db.engine.memtable.iter) :
    Yields flushMemtable db
      (fun _ after => Roomy db ∧ db.engine.version.levels ≠ [] ∧ ¬ PlanFails db.faults 4 ∧
        AfterFlush sound db after)
      (FlushFails sound db) := by
  have start : Yields current db (fun value mid => db = value ∧ db = mid) (FlushFails sound db) :=
    ⟨rfl, rfl⟩
  refine start.bind ?_
  rintro _ _ ⟨rfl, rfl⟩
  rw [if_neg (by simp [filled])]
  have freezes : Yields freeze db
      (fun value mid => db.engine.memtable.iter = value ∧ db.frozen = mid)
      (FlushFails sound db) := ⟨rfl, rfl⟩
  refine freezes.bind ?_
  rintro _ _ ⟨rfl, rfl⟩
  refine rooted.yields_nextTableId.bind ?_
  rintro id allocated ⟨rfl, room, reserved, tables, freezing⟩
  refine (freezing.yields_createTable rooted room reserved fits).bind ?_
  rintro table created ⟨isId, held, entries, manifest, freezing'⟩
  have unlisted : created.engine.manifest.lists db.engine.manifest.nextTableId = false := by
    rw [manifest, Manifest.lists, tables]
    exact rooted.unlisted_next
  refine (freezing'.yields_addTable rooted room unlisted
    (by rw [manifest]; exact reserved.below)).bind ?_
  rintro _ recorded ⟨files, freezing''⟩
  rw [← files] at held entries
  refine (freezing''.yields_pushFront rooted held entries).bind ?_
  rintro _ installed pushed
  have truncates : Yields walTruncate installed
      (fun _ after => ¬ PlanFails db.faults 4 ∧
        ∃ wal faults, after =
          { installed with disk := { installed.disk with wal := wal }, faults := faults })
      (FlushFails sound db) := by
    refine Yields.intro ?_ ?_
    · intro _ after done
      have passed := walTruncate_passed done
      obtain ⟨faults, rfl⟩ := walTruncate_of_ok done
      refine ⟨fun fails => ?_, [], faults, rfl⟩
      exact not_planFails_zero _ ((passed.planFails_iff 0).mp (pushed.plan.mp fails))
    · intro failure after failed
      have stopped := walTruncate_stopped failed
      obtain ⟨rfl, wal, faults, _, rfl⟩ := walTruncate_of_error failed
      refine ⟨room, ?_, ?_, pushed.reading⟩
      · rw [Db.flushOperations, if_neg pushed.levelled]
        exact pushed.plan.mpr (stopped.planFails 0)
      · exact pushed.rooted.frame rfl rfl rfl rfl pushed.rooted.keyed
  refine truncates.bind ?_
  rintro _ _ ⟨passes, wal, faults, rfl⟩
  refine ⟨room, pushed.levelled, passes, ?_, fun key => ?_⟩
  · exact pushed.rooted.frame rfl rfl rfl rfl pushed.rooted.keyed
  · change visible ((installed.engine.memtable.get key).or (installed.tableLookup key)) = _
    rw [pushed.memtable, pushed.lookup]
    rfl

theorem Rooted.yields_flush (rooted : Rooted sound db)
    (filled : db.engine.memtable.isEmpty = false)
    (fits : Fits db.engine.options db.engine.memtable.iter) :
    Yields flush db
      (fun _ after => Roomy db ∧ db.engine.version.levels ≠ [] ∧ ¬ PlanFails db.faults 4 ∧
        AfterFlush sound db after)
      (FlushFails sound db) := by
  refine (rooted.yields_flushMemtable filled fits).bind ?_
  rintro _ mid ⟨room, levelled, passes, flushed⟩
  unfold Yields maybeRequestCompaction
  split_ifs
  · exact ⟨room, levelled, passes,
      flushed.rooted.frame rfl rfl rfl rfl flushed.rooted.keyed, flushed.reading⟩
  · exact ⟨room, levelled, passes, flushed⟩

end Flush

/-! ## Writes -/

/-- The call of the engine that makes the write. -/
def Operation.call : Operation → Action fmt Unit
  | .put key value => LsmStore.put key value
  | .delete key => LsmStore.delete key

/-- The engine refuses the key or the value. -/
def Operation.Refused (operation : Operation) : Prop :=
  validateKey operation.key ≠ .ok () ∨ validateValue operation.value ≠ .ok ()

/-- The write is all or nothing: with an error every read returns what it returned
before, and without one only reads of its key change, to what it wrote. -/
def Atomic (operation : Operation) (plan : List Verdict) (db : Db fmt) : Prop :=
  match operation.call (db.planned plan) with
  | .ok () after =>
      after.eval (get operation.key) = .ok operation.result ∧
        ∀ key, key ≠ operation.key → after.eval (get key) = db.eval (get key)
  | .error (.error _) after => ∀ key, after.eval (get key) = db.eval (get key)
  | .error .panic _ => True

/-- The memtable is to be flushed once the operation is applied. -/
def Db.Full (db : Db fmt) (operation : Operation) : Prop :=
  (apply db.engine.memtable operation).approximateSize ≥ db.engine.options.memtableSizeBytes

/-- What reads of other keys find in the parked memtable of a failed flush, the tables
show as well. -/
def Db.ParkedShown (db : Db fmt) (operation : Operation) : Prop :=
  ∀ key entry, validateKey key = .ok () → key ≠ operation.key →
    db.engine.memtable.get key = none → db.engine.immutable.bind (·.get key) = some entry →
      visible (db.tableLookup key) = visible (some entry)

/-- The write is refused, or it fails before it is applied, or it does not flush, or the
flush panics; or nothing is lost with the parked memtable and, if the flush fails, the
key reads already what is written. -/
def Spared (operation : Operation) (plan : List Verdict) (db : Db fmt) : Prop :=
  operation.Refused ∨ PlanFails plan 2 ∨ ¬ db.Full operation ∨ db.Doomed (plan.drop 2) ∨
    db.ParkedShown operation ∧
      (PlanFails (plan.drop 2) db.flushOperations → db.reading operation.key = operation.result)

section Writes

variable {sound : fmt.Sound Fits} {db after : Db fmt} {operation : Operation}
  {plan : List Verdict}

/-- A call is refused without any effect, or it is a write within the limits. -/
theorem Operation.call_cases (operation : Operation) :
    (operation.Refused ∧
      ∃ cause, ∀ db : Db fmt, operation.call db = .error (.error cause) db) ∨
    ¬ operation.Refused ∧ operation.Fits ∧ validateKey operation.key = .ok () ∧
      ∀ db : Db fmt, operation.call db = write operation db := by
  have fits : ∀ {operation : Operation}, validateKey operation.key = .ok () →
      validateValue operation.value = .ok () → operation.Fits := fun keyValid valueValid =>
    ⟨(validateKey_eq_ok_iff.mp keyValid).2, validateValue_eq_ok_iff.mp valueValid⟩
  cases operation with
  | put key value =>
      cases keyValid : validateKey key with
      | error cause =>
          refine .inl ⟨.inl ?_, cause, fun db => ?_⟩
          · change validateKey key ≠ .ok ()
            rw [keyValid]
            nofun
          · change LsmStore.put key value db = _
            rw [LsmStore.put, keyValid]
      | ok _ =>
          cases valueValid : validateValue value with
          | error cause =>
              refine .inl ⟨.inr ?_, cause, fun db => ?_⟩
              · change validateValue value ≠ .ok ()
                rw [valueValid]
                nofun
              · change LsmStore.put key value db = _
                rw [LsmStore.put, keyValid, valueValid]
          | ok _ =>
              refine .inr ⟨?_, fits keyValid valueValid, keyValid, fun db => ?_⟩
              · rintro (refused | refused)
                · exact refused keyValid
                · exact refused valueValid
              · change LsmStore.put key value db = _
                rw [LsmStore.put, keyValid, valueValid]
  | delete key =>
      cases keyValid : validateKey key with
      | error cause =>
          refine .inl ⟨.inl ?_, cause, fun db => ?_⟩
          · change validateKey key ≠ .ok ()
            rw [keyValid]
            nofun
          · change LsmStore.delete key db = _
            rw [LsmStore.delete, keyValid]
      | ok _ =>
          refine .inr ⟨?_, fits keyValid rfl, keyValid, fun db => ?_⟩
          · rintro (refused | refused)
            · exact refused keyValid
            · exact refused rfl
          · change LsmStore.delete key db = _
            rw [LsmStore.delete, keyValid]

/-- A read of a key that is refused says so in every database. -/
theorem eval_get_of_invalid {key : Key} {cause : Error}
    (invalid : validateKey key = .error cause) :
    db.eval (get key) = .error (.error cause) := by
  rw [Db.eval, get, invalid]

theorem Rooted.eval_get (rooted : Rooted sound db) {key : Key}
    (valid : validateKey key = .ok ()) : db.eval (get key) = .ok (db.reading key) :=
  LsmStore.eval_get sound rooted.held rooted.coherent valid

/-- Two databases answer alike, at one key. -/
theorem Rooted.eval_get_eq_iff (rooted : Rooted sound db) (rooted' : Rooted sound after)
    (key : Key) : after.eval (get key) = db.eval (get key) ↔
      (validateKey key = .ok () → after.reading key = db.reading key) := by
  cases valid : validateKey key with
  | error cause =>
      rw [eval_get_of_invalid valid, eval_get_of_invalid valid]
      exact ⟨fun _ => nofun, fun _ => rfl⟩
  | ok _ =>
      rw [rooted.eval_get valid, rooted'.eval_get valid]
      exact ⟨fun same _ => Except.ok.inj same, fun same => congrArg _ (same rfl)⟩

/-- Logging fails when the plan says so, and what can be read stays. -/
theorem logAndApply_of_planFails (fails : PlanFails db.faults 2) (fits : operation.Fits) :
    ∃ cause wal faults, logAndApply operation db =
      .error (.error cause)
        { db with disk := { db.disk with wal := wal }, faults := faults } := by
  cases ran : logAndApply operation db with
  | ok value mid =>
      obtain ⟨_, logged, appended, ran⟩ := bind_eq_ok.mp ran
      obtain ⟨_, _, synced, _⟩ := bind_eq_ok.mp ran
      have first : db.Passed logged := walAppend_passed appended
      have second := walSync_passed synced
      exact absurd ((second.planFails_iff 0).mp ((first.planFails_iff 1).mp fails))
        (not_planFails_zero _)
  | error failure mid =>
      rcases bind_eq_error.mp ran with failed | ⟨_, logged, appended, failed⟩
      · rcases walAppend_of_error failed with ⟨unfit, _⟩ | ⟨_, rfl, progress, faults, _, rfl⟩
        · exact absurd fits unfit
        · exact ⟨_, _, faults, rfl⟩
      · obtain ⟨_, faults, rfl⟩ := walAppend_of_ok appended
        rcases bind_eq_error.mp failed with failed | ⟨_, _, _, impossible⟩
        · obtain ⟨rfl, faults, rfl⟩ := walSync_of_error failed
          exact ⟨_, _, faults, rfl⟩
        · cases impossible

/-- A full memtable is not empty. -/
theorem isEmpty_apply (memtable : MemTable) (operation : Operation) :
    (apply memtable operation).isEmpty = false := by
  rw [apply_eq_insert]
  exact MemTable.isEmpty_insert _ _ _

/-- What reads see when the memtable takes the place of the parked one. -/
theorem reading_eq_iff_shown (memtable parked : Option Entry) (tables : Option Entry) :
    visible (memtable.or tables) = visible (memtable.or (parked.or tables)) ↔
      ∀ entry, memtable = none → parked = some entry → visible tables = visible (some entry) := by
  cases memtable with
  | some entry => exact ⟨fun _ _ => nofun, fun _ => rfl⟩
  | none =>
      cases parked with
      | none => exact ⟨fun _ _ _ => nofun, fun _ => rfl⟩
      | some entry =>
          constructor
          · rintro same _ _ ⟨⟩
            exact same
          · intro shown
            exact shown entry rfl rfl

/-- After a flush of the applied operation, reads of other keys are as they were exactly
when nothing is lost with the parked memtable. -/
theorem AfterFlush.others_iff (flushed : AfterFlush sound (db.written operation) after)
    (rooted : Rooted sound db) :
    (∀ key, key ≠ operation.key → after.eval (get key) = db.eval (get key)) ↔
      db.ParkedShown operation := by
  have same : ∀ key, key ≠ operation.key → (after.reading key = db.reading key ↔
      ∀ entry, db.engine.memtable.get key = none →
        db.engine.immutable.bind (·.get key) = some entry →
          visible (db.tableLookup key) = visible (some entry)) := by
    intro key different
    have unchanged : (apply db.engine.memtable operation).get key = db.engine.memtable.get key := by
      rw [get_apply, if_neg different]
    rw [flushed.reading, Db.reading]
    change visible (((apply db.engine.memtable operation).get key).or (db.tableLookup key)) = _ ↔ _
    rw [unchanged]
    exact reading_eq_iff_shown _ _ _
  constructor
  · intro reads key entry valid different absent parked
    exact (same key different).mp
      ((rooted.eval_get_eq_iff flushed.rooted key).mp (reads key different) valid) entry absent
      parked
  · intro shown key different
    refine (rooted.eval_get_eq_iff flushed.rooted key).mpr fun valid => ?_
    exact (same key different).mpr fun entry absent parked =>
      shown key entry valid different absent parked

theorem AfterFlush.reading_key (flushed : AfterFlush sound (db.written operation) after) :
    after.reading operation.key = operation.result := by
  rw [flushed.reading]
  change visible (((apply db.engine.memtable operation).get operation.key).or _) = _
  rw [get_apply, if_pos rfl]
  exact visible_entry operation

/-- Databases that read alike answer alike. -/
theorem Rooted.eval_get_congr (rooted : Rooted sound db) (rooted' : Rooted sound after)
    (same : ∀ key, after.reading key = db.reading key) (key : Key) :
    after.eval (get key) = db.eval (get key) :=
  (rooted.eval_get_eq_iff rooted' key).mpr fun _ => same key

/-- The database in which a write starts its flush. -/
def Db.applied (db : Db fmt) (operation : Operation) (plan : List Verdict) : Db fmt :=
  (db.written operation).planned (plan.drop 2)

theorem Rooted.applied (rooted : Rooted sound db) (keyed : operation.key ≠ [])
    (plan : List Verdict) : Rooted sound (db.applied operation plan) :=
  rooted.frame rfl rfl rfl rfl (keyed_apply rooted.keyed keyed)

/-- A write whose operation is logged goes on to flush, or it is done. -/
theorem write_of_logged (fits : operation.Fits) (passes : ¬ PlanFails plan 2) :
    (db.Full operation →
      write operation (db.planned plan) = flush (db.applied operation plan)) ∧
    (¬ db.Full operation →
      write operation (db.planned plan) = .ok () (db.applied operation plan)) := by
  have logged : logAndApply operation (db.planned plan) =
      .ok () (db.applied operation plan) := by
    have isRest : plan.tail.tail = plan.drop 2 := by
      rcases plan with _ | ⟨_, _ | _⟩ <;> rfl
    rw [Db.applied, ← isRest]
    refine logAndApply_of_done fits fun verdict member => ?_
    cases verdict with
    | done => rfl
    | fail progress => exact absurd ⟨progress, member⟩ passes
  have full_iff : (db.applied operation plan).engine.memtable.approximateSize ≥
      (db.applied operation plan).engine.options.memtableSizeBytes ↔ db.Full operation := Iff.rfl
  rw [write_eq_logAndApply]
  constructor
  · intro full
    refine (bind_of_ok logged).trans ((bind_of_ok (show current _ = .ok _ _ from rfl)).trans ?_)
    rw [if_pos (full_iff.mpr full)]
  · intro small
    refine (bind_of_ok logged).trans ((bind_of_ok (show current _ = .ok _ _ from rfl)).trans ?_)
    rw [if_neg (mt full_iff.mp small)]
    rfl

/-- A write whose flush ends in one way or the other. -/
theorem Rooted.atomic_iff_of_full (rooted : Rooted sound db) (accepted : ¬ operation.Refused)
    (acts : ∀ db : Db fmt, operation.call db = write operation db) (opFits : operation.Fits)
    (valid : validateKey operation.key = .ok ()) (passes : ¬ PlanFails plan 2)
    (full : db.Full operation)
    (fits : Fits db.engine.options (apply db.engine.memtable operation).iter) :
    Atomic operation plan db ↔ Spared operation plan db := by
  have spared_iff : Spared operation plan db ↔ db.Doomed (plan.drop 2) ∨
      db.ParkedShown operation ∧ (PlanFails (plan.drop 2) db.flushOperations →
        db.reading operation.key = operation.result) := by
    simp only [Spared, accepted, passes, full, not_true_eq_false, false_or]
  have applied := rooted.applied (validateKey_eq_ok_iff.mp valid).1 plan
  have flushes := applied.yields_flush (isEmpty_apply _ _) fits
  rw [spared_iff, Atomic, acts, (write_of_logged opFits passes).1 full]
  unfold Yields at flushes
  cases ran : flush (db.applied operation plan) with
  | ok value after =>
      rw [ran] at flushes
      obtain ⟨room, levelled, unfailing, flushed⟩ := flushes
      have flushed' : AfterFlush sound (db.written operation) after :=
        ⟨flushed.rooted, flushed.reading⟩
      have undoomed : ¬ db.Doomed (plan.drop 2) := by
        rintro (full | ⟨none, _⟩)
        · exact full room
        · exact levelled none
      have undisturbed : ¬ PlanFails (plan.drop 2) db.flushOperations := by
        rw [Db.flushOperations, if_neg (show db.engine.version.levels ≠ [] from levelled)]
        exact unfailing
      dsimp only
      rw [flushed'.rooted.eval_get valid, flushed'.reading_key, flushed'.others_iff rooted]
      simp [undoomed, undisturbed]
  | error failure after =>
      rw [ran] at flushes
      cases failure with
      | panic => exact ⟨fun _ => .inl flushes, fun _ => trivial⟩
      | error cause =>
          obtain ⟨room, fails, flushed⟩ := flushes
          have flushed' : AfterFlush sound (db.written operation) after :=
            ⟨flushed.rooted, flushed.reading⟩
          have fails' : PlanFails (plan.drop 2) db.flushOperations := fails
          have undoomed : ¬ db.Doomed (plan.drop 2) := by
            rintro (full | ⟨none, unfailing⟩)
            · exact full room
            · rw [Db.flushOperations, if_pos none] at fails'
              exact unfailing fails'
          have own := rooted.eval_get_eq_iff flushed'.rooted operation.key
          rw [flushed'.reading_key] at own
          dsimp only
          simp only [undoomed, false_or, fails', true_implies, ← flushed'.others_iff rooted]
          constructor
          · intro same
            exact ⟨fun key _ => same key, ((own.mp (same _)) valid).symm⟩
          · rintro ⟨others, already⟩ key
            by_cases isKey : key = operation.key
            · rw [isKey]
              exact own.mpr fun _ => already.symm
            · exact others key isKey

/-- **When a write is all or nothing**, in a database in which every table can be
read. -/
theorem Rooted.atomic_iff (rooted : Rooted sound db) (operation : Operation) (plan : List Verdict)
    (fits : db.Full operation →
      Fits db.engine.options (apply db.engine.memtable operation).iter) :
    Atomic operation plan db ↔ Spared operation plan db := by
  rcases @Operation.call_cases fmt operation with
    ⟨refused, cause, acts⟩ | ⟨accepted, opFits, valid, acts⟩
  · refine ⟨fun _ => .inl refused, fun _ => ?_⟩
    rw [Atomic, acts]
    exact rooted.eval_get_congr (rooted.planned plan) fun _ => rfl
  by_cases logFails : PlanFails plan 2
  · refine ⟨fun _ => .inr (.inl logFails), fun _ => ?_⟩
    obtain ⟨cause, wal, faults, failed⟩ :=
      @logAndApply_of_planFails fmt (db.planned plan) operation logFails opFits
    have stops := (congrFun (write_eq_logAndApply operation) (db.planned plan)).trans
      (bind_of_error failed)
    rw [Atomic, acts, stops]
    exact rooted.eval_get_congr (rooted.frame rfl rfl rfl rfl rooted.keyed) fun _ => rfl
  by_cases full : db.Full operation
  · exact rooted.atomic_iff_of_full accepted acts opFits valid logFails full (fits full)
  · refine ⟨fun _ => .inr (.inr (.inl full)), fun _ => ?_⟩
    have applied := rooted.applied (validateKey_eq_ok_iff.mp valid).1 plan
    rw [Atomic, acts, (write_of_logged opFits logFails).2 full]
    refine ⟨?_, fun key different => (rooted.eval_get_eq_iff applied key).mpr fun _ => ?_⟩
    · rw [applied.eval_get valid]
      change Except.ok ((db.written operation).reading operation.key) = _
      rw [reading_written, if_pos rfl]
    · change (db.written operation).reading key = _
      rw [reading_written, if_neg different]

end Writes

/-! ## Every state of every process -/

/-- **When a write is all or nothing.**  A new database is opened, and then steps of
writes, reads, flushes and passes follow one another in any order, each with a plan of
which of its file operations fail, and the process may stop at any time and open the
directory again, with any options.  Asked is that the tables that are created fit the
format and that a directory that is opened again does not hand out the id of a table
file a second time.  In every state that is reached, a put or a delete is all or
nothing, whatever file operation fails, exactly when it is spared. -/
theorem write_atomic_iff (sizing : BloomSizing) {options : Options}
    {start : Db (byteTables sizing)} (opened : openNew (byteTables sizing) options = .ok start)
    {happenings : List Happening}
    (orderly : AllHappenings (Happening.Orderly (TableFits sizing)) happenings
      (State.start start))
    {state : State (byteTables sizing)} {contents : Contents (byteTables sizing)}
    (reached : survive happenings (State.start start, fun _ => none) = some (state, contents))
    (operation : Operation) (plan : List Verdict)
    (fits : state.db.Full operation → TableFits sizing state.db.engine.options
      (apply state.db.engine.memtable operation).iter) :
    Atomic operation plan state.db ↔ Spared operation plan state.db := by
  rw [openNew_eq] at opened
  obtain rfl : Db.new (byteTables sizing) options = start := Except.ok.inj opened
  have sturdy := (rooted_new (byteTables_sound sizing) options).start.survive orderly reached
  exact sturdy.rooted.atomic_iff operation plan fits

/-- Options under which every write flushes. -/
def promptOptions : Options := { tinyOptions with memtableSizeBytes := 1 }

/-- A put that flushes without a failure is all or nothing. -/
theorem write_atomic_iff_flushed :
    ∃ start state contents, openNew (byteTables smallSizing) promptOptions = .ok start ∧
      survive [.act (.get [97]) []] (State.start start, fun _ => none) = some (state, contents) ∧
      Atomic (.put [97] [49]) [] state.db := by
  have orderly : AllHappenings (Happening.Orderly (TableFits smallSizing)) [.act (.get [97]) []]
      (State.start (Db.new (byteTables smallSizing) promptOptions)) :=
    ⟨trivial, fun _ _ => trivial⟩
  refine ⟨_, _, _, openNew_eq _ _, rfl, ?_⟩
  refine (write_atomic_iff smallSizing (openNew_eq _ _) orderly rfl (.put [97] [49]) []
    fun _ => ?_).mpr ?_
  · exact ⟨tinyTable_fits.1, tinyTable_fits.2, tinyTable_fits.3, tinyTable_fits.4⟩
  · refine .inr (.inr (.inr (.inr ⟨fun _ _ _ _ _ parked => ?_, fun fails => ?_⟩)))
    · cases parked
    · obtain ⟨_, member⟩ := fails
      cases member

/-- **A write fails and stays.**  The flush that a put starts cannot write the record of
its table id.  The put returns an error, and the value is read afterwards. -/
theorem failed_write_stays :
    ∃ start cause after, openNew (byteTables smallSizing) promptOptions = .ok start ∧
      put [97] [49] (start.planned [.done, .done, .fail 0]) = .error (.error cause) after ∧
      start.eval (get [97]) = .ok none ∧ after.eval (get [97]) = .ok (some [49]) :=
  ⟨_, _, _, openNew_eq _ _, rfl, rfl, rfl⟩

end LsmStore
