import LsmStore.Actions

/-!
# Reading the database

A table is held by the directory when its file exists and holds, through the
format, the entries its handle describes.  Over held tables a lookup through the
tables of a version is the lookup through their entries (`searchTables_spec`),
a read of the engine is the read through memtable, frozen memtable and tables
(`eval_get`), and a compaction writes the merge of its inputs
(`writeOutput_of_ok`).
-/

set_option autoImplicit false

namespace LsmStore

open Foundation

variable {fmt : TableFormat} {Fits : Options → List (Key × Entry) → Prop}

/-- The entries that an iterator over the table yields. -/
def entriesOn (files : UInt64 → Option fmt.File) (table : SsTable fmt) : List (Key × Entry) :=
  match fmt.iter table.handle (files table.id) with
  | .ok items => items.filterMap Except.toOption
  | .error _ => []

/-- The file of a table exists, and it holds the table's entries. -/
def Held (sound : fmt.Sound Fits) (files : UInt64 → Option fmt.File) (table : SsTable fmt) : Prop :=
  ∃ file, files table.id = some file ∧ sound.Holds table.handle file (entriesOn files table)

theorem entriesOn_eq (sound : fmt.Sound Fits) {files : UInt64 → Option fmt.File} {table : SsTable fmt}
    {file : fmt.File} {entries : List (Key × Entry)} (present : files table.id = some file)
    (holds : sound.Holds table.handle file entries) : entriesOn files table = entries := by
  unfold entriesOn
  rw [present, sound.iter_ok holds]
  dsimp only
  rw [List.filterMap_map]
  exact List.filterMap_some

theorem Held.intro (sound : fmt.Sound Fits) {files : UInt64 → Option fmt.File} {table : SsTable fmt}
    {file : fmt.File} {entries : List (Key × Entry)} (present : files table.id = some file)
    (holds : sound.Holds table.handle file entries) : Held sound files table :=
  ⟨file, present, by rw [entriesOn_eq sound present holds]; exact holds⟩

namespace Held

variable {sound : fmt.Sound Fits} {files files' : UInt64 → Option fmt.File} {table : SsTable fmt}

theorem ranged (held : Held sound files table) : Ranged (entriesOn files) table := by
  obtain ⟨file, _, holds⟩ := held
  exact ⟨sound.valid holds, sound.smallestKey_eq holds, sound.largestKey_eq holds⟩

theorem iter (held : Held sound files table) :
    fmt.iter table.handle (files table.id) = .ok ((entriesOn files table).map .ok) := by
  obtain ⟨file, present, holds⟩ := held
  rw [present]
  exact sound.iter_ok holds

end Held

theorem entriesOn_congr {files files' : UInt64 → Option fmt.File} {table : SsTable fmt}
    (same : files' table.id = files table.id) :
    entriesOn files' table = entriesOn files table := by
  unfold entriesOn
  rw [same]

theorem Held.congr {sound : fmt.Sound Fits} {files files' : UInt64 → Option fmt.File} {table : SsTable fmt}
    (held : Held sound files table) (same : files' table.id = files table.id) :
    Held sound files' table := by
  obtain ⟨file, present, holds⟩ := held
  exact ⟨file, same.trans present, by rw [entriesOn_congr same]; exact holds⟩

theorem lookupIn_congr {content content' : SsTable fmt → List (Key × Entry)}
    {tables : List (SsTable fmt)} (same : ∀ table ∈ tables, content' table = content table)
    (key : Key) : lookupIn content' tables key = lookupIn content tables key :=
  findSome?_congr fun table member => by rw [entryIn, entryIn, same table member]

/-! ## Lookups -/

/-- A table answers a lookup of a key: it is not skipped if it has an entry, and a
search of its file gives the answer and keeps the cache as it should be. -/
structure Answers (Kept : fmt.Cache → Prop) (files : UInt64 → Option fmt.File) (key : Key)
    (table : SsTable fmt) (answer : Option Entry) : Prop where
  not_skipped : answer ≠ none →
    fmt.containsRange table.handle key = true ∧ fmt.mightContain table.handle key = true
  get_ok : ∀ {cache}, Kept cache → ∃ cache',
    fmt.get table.id table.handle (files table.id) key cache = (.ok answer, cache') ∧ Kept cache'

/-- **Searching tables returns the first answer.** -/
theorem searchTables_of_answers {Kept : fmt.Cache → Prop} {key : Key} {tables : List (SsTable fmt)}
    {found : List (Option Entry)} {db : Db fmt}
    (answers : List.Forall₂ (Answers Kept db.disk.sst key) tables found)
    (kept : Kept db.engine.cache) :
    ∃ cache skips reads, searchTables key tables db =
        .ok (visible (found.findSome? id))
          { db with
            engine :=
              { db.engine with cache := cache, bloomSkips := skips, sstableReads := reads } } ∧
      Kept cache := by
  induction tables generalizing found db with
  | nil =>
      cases answers
      exact ⟨db.engine.cache, db.engine.bloomSkips, db.engine.sstableReads, rfl, kept⟩
  | cons table rest ih =>
      obtain ⟨answer, later, ⟨not_skipped, get_ok⟩, restAnswers, rfl⟩ :=
        List.forall₂_cons_left_iff.mp answers
      obtain ⟨cache, got, kept'⟩ := get_ok kept
      rw [searchTables, List.findSome?_cons]
      cases answer with
      | none =>
          -- The table may be skipped, or searched without a result.
          split
          · exact ih restAnswers kept
          · split
            · exact ih restAnswers kept
            · rw [got]
              exact ih restAnswers kept'
      | some entry =>
          obtain ⟨inRange, inFilter⟩ := not_skipped (Option.some_ne_none entry)
          refine ⟨cache, db.engine.bloomSkips, db.engine.sstableReads + 1, ?_, kept'⟩
          simp only [inRange, inFilter, Bool.not_true, Bool.false_eq_true, if_false, got]
          cases entry <;> rfl

/-- A held table answers with its entry of the key. -/
theorem Held.answers {sound : fmt.Sound Fits} {files : UInt64 → Option fmt.File}
    {table : SsTable fmt} (held : Held sound files table) (key : Key) :
    Answers (sound.Coherent files) files key table (entryIn (entriesOn files) key table) := by
  obtain ⟨file, present, holds⟩ := held
  refine ⟨sound.not_skipped holds, fun coherent => ?_⟩
  rw [present]
  exact sound.get_ok table.id key holds present coherent

/-- A value found in the first table of a search ends it. -/
theorem searchTables_of_found {db : Db fmt} {table : SsTable fmt} {key : Key}
    {bytes : Bytes} {cache : fmt.Cache} {rest : List (SsTable fmt)}
    (inside : fmt.containsRange table.handle key = true)
    (known : fmt.mightContain table.handle key = true)
    (found : fmt.get table.id table.handle (db.disk.sst table.id) key db.engine.cache =
      (.ok (some (.value bytes)), cache)) :
    searchTables key (table :: rest) db =
      .ok (some bytes)
        { db with
          engine :=
            { db.engine with
              sstableReads := db.engine.sstableReads + 1, cache := cache } } := by
  rw [searchTables, if_neg (by simp [inside]), if_neg (by simp [known]), found]

/-- **Searching tables is looking through their entries.** -/
theorem searchTables_spec (sound : fmt.Sound Fits) (key : Key) {tables : List (SsTable fmt)}
    {db : Db fmt} (held : ∀ table ∈ tables, Held sound db.disk.sst table)
    (coherent : sound.Coherent db.disk.sst db.engine.cache) :
    ∃ cache skips reads, searchTables key tables db =
        .ok (visible (lookupIn (entriesOn db.disk.sst) tables key))
          { db with
            engine :=
              { db.engine with cache := cache, bloomSkips := skips, sstableReads := reads } } ∧
      sound.Coherent db.disk.sst cache := by
  have answers : List.Forall₂ (Answers (sound.Coherent db.disk.sst) db.disk.sst key) tables
      (tables.map (entryIn (entriesOn db.disk.sst) key)) :=
    List.forall₂_map_right_iff.mpr
      (List.forall₂_same.mpr fun table member => (held table member).answers key)
  have searched := searchTables_of_answers answers coherent
  rwa [List.findSome?_map, Function.id_comp] at searched

/-- What a lookup through the tables of the current version finds. -/
def Db.tableLookup (db : Db fmt) (key : Key) : Option Entry :=
  lookupIn (entriesOn db.disk.sst) db.engine.version.tablesNewestFirst key

/-- What a read sees: the memtable, then the frozen memtable, then the tables. -/
def Db.reading (db : Db fmt) (key : Key) : Option Bytes :=
  visible ((db.engine.memtable.get key).or
    ((db.engine.immutable.bind (·.get key)).or (db.tableLookup key)))

/-- Reads that find the same memtables and see the same in the tables are the same. -/
theorem Db.reading_congr {db db' : Db fmt} {key : Key}
    (memtable : db'.engine.memtable = db.engine.memtable)
    (immutable : db'.engine.immutable = db.engine.immutable)
    (tables : visible (db'.tableLookup key) = visible (db.tableLookup key)) :
    db'.reading key = db.reading key := by
  unfold Db.reading
  rw [memtable, immutable, ← Option.or_assoc, ← Option.or_assoc]
  cases (db.engine.memtable.get key).or (db.engine.immutable.bind (·.get key)) with
  | some entry => rfl
  | none => exact tables

theorem eval_getFromTables (sound : fmt.Sound Fits) {db : Db fmt}
    (held : ∀ table ∈ db.engine.version.tablesNewestFirst, Held sound db.disk.sst table)
    (coherent : sound.Coherent db.disk.sst db.engine.cache) (key : Key) :
    db.eval (getFromTables key) = .ok (visible (db.tableLookup key)) := by
  obtain ⟨cache, skips, reads, searched, _⟩ := searchTables_spec sound key held coherent
  rw [Db.eval, getFromTables, searched]
  rfl

/-- A read looks at the memtable, then at the frozen memtable, then at the tables. -/
theorem eval_get_of_tables {db : Db fmt} {key : Key} {found : Option Entry}
    (tables : db.eval (getFromTables key) = .ok (visible found))
    (valid : validateKey key = .ok ()) :
    db.eval (get key) = .ok (visible ((db.engine.memtable.get key).or
      ((db.engine.immutable.bind (·.get key)).or found))) := by
  rw [Db.eval, get, valid]
  cases db.engine.memtable.get key with
  | some entry => cases entry <;> rfl
  | none =>
      cases db.engine.immutable.bind (·.get key) with
      | some entry => cases entry <;> rfl
      | none => exact tables

/-- **A read of the engine** returns the newest visible value. -/
theorem eval_get (sound : fmt.Sound Fits) {db : Db fmt}
    (held : ∀ table ∈ db.engine.version.tablesNewestFirst, Held sound db.disk.sst table)
    (coherent : sound.Coherent db.disk.sst db.engine.cache) {key : Key}
    (valid : validateKey key = .ok ()) :
    db.eval (get key) = .ok (db.reading key) :=
  eval_get_of_tables (eval_getFromTables sound held coherent key) valid

/-! ## Merging the inputs of a job -/

/-- Iterators over readable tables yield their entries. -/
theorem inputIterators_of_reads {files : UInt64 → Option fmt.File} {tables : List (SsTable fmt)}
    {runs : List (List (Key × Entry))}
    (reads : List.Forall₂ (fun table run =>
      fmt.iter table.handle (files table.id) = .ok (run.map .ok)) tables runs) :
    inputIterators files tables = .ok (runs.map (List.map .ok)) := by
  induction reads with
  | nil => rfl
  | cons first _ ih =>
      unfold inputIterators
      rw [first, ih]
      rfl

theorem inputIterators_of_held {sound : fmt.Sound Fits} {files : UInt64 → Option fmt.File}
    {inputs : List (SsTable fmt)} (held : ∀ input ∈ inputs, Held sound files input) :
    inputIterators files inputs =
      .ok ((inputs.map (entriesOn files)).map (List.map .ok)) :=
  inputIterators_of_reads (List.forall₂_map_right_iff.mpr
    (List.forall₂_same.mpr fun input member => (held input member).iter))

/-- **The k-way merge.**  Tables are read newest first, each with strictly
increasing keys.  Without dropping tombstones the merge returns strictly
increasing keys, the union of the tables' keys, each with the entry of the first
table that holds it; dropping tombstones returns that list without them. -/
theorem merge_tables_correct (files : UInt64 → Option fmt.File) (tables : List (SsTable fmt))
    (runs : List (List (Key × Entry)))
    (reads : List.Forall₂ (fun table run =>
      fmt.iter table.handle (files table.id) = .ok (run.map .ok)) tables runs)
    (sorted : ∀ run ∈ runs, KeySorted run) :
    ∃ iterators merged, inputIterators files tables = .ok iterators ∧
      mergeTables iterators false = .ok merged ∧ KeySorted merged ∧
      (∀ key, key ∈ merged.map Prod.fst ↔ ∃ run ∈ runs, key ∈ run.map Prod.fst) ∧
      (∀ key entry, (key, entry) ∈ merged ↔
        ∃ newer run older, runs = newer ++ run :: older ∧ (key, entry) ∈ run ∧
          ∀ other ∈ newer, key ∉ other.map Prod.fst) ∧
      mergeTables iterators true = .ok (merged.filter fun pair => pair.2 ≠ .tombstone) := by
  obtain ⟨merged, mergedIs, mergedSorted, spec⟩ := mergeTables_spec sorted false
  have entries : ∀ key entry, (key, entry) ∈ merged ↔ newestAt runs key = some entry := by
    intro key entry
    rw [← mergedSorted.valueAt_eq_some_iff, spec, keepEntry]
    simp
  refine ⟨_, merged, inputIterators_of_reads reads, mergedIs, mergedSorted, fun key => ?_,
    fun key entry => (entries key entry).trans (newestAt_eq_some_iff sorted),
    mergeTables_drop sorted mergedSorted spec⟩
  rw [← exists_newestAt_iff sorted, List.mem_map]
  constructor
  · rintro ⟨⟨_, entry⟩, member, rfl⟩
    exact ⟨entry, (entries _ entry).mp member⟩
  · rintro ⟨entry, found⟩
    exact ⟨(key, entry), (entries key entry).mpr found, rfl⟩

/-- Table 1 holds a value of a key, table 2 a tombstone of the same key. -/
def overlaid (id : UInt64) : Option smallTables.File :=
  let held : Entry := if id = 1 then .value [49] else .tombstone
  some (ContentFile.mk [([97], held)] (BloomFilter.new smallSizing 1 0.01) 1)

/-- The newer table first. -/
def overlaidTables : List (SsTable smallTables) :=
  let handle := ContentHandle.mk [97] [97] (BloomFilter.new smallSizing 1 0.01) 1
  [⟨2, handle⟩, ⟨1, handle⟩]

/-- The merge of a tombstone over a value holds the tombstone. -/
theorem merge_tables_correct_tombstone :
    ∃ iterators merged, inputIterators overlaid overlaidTables = .ok iterators ∧
      mergeTables iterators false = .ok merged ∧ ([97], .tombstone) ∈ merged := by
  obtain ⟨iterators, merged, opened, mergedIs, _, _, entries, _⟩ :=
    merge_tables_correct overlaid overlaidTables [[([97], .tombstone)], [([97], .value [49])]]
      (.cons rfl (.cons rfl .nil)) (by decide)
  exact ⟨iterators, merged, opened, mergedIs, (entries _ _).mpr
    ⟨[], [([97], .tombstone)], [[([97], .value [49])]], rfl, by decide, by decide⟩⟩

/-- The merged entries of a job's inputs. -/
def mergedEntries (files : UInt64 → Option fmt.File) (job : CompactionJob fmt) (drops : Bool) :
    List (Key × Entry) :=
  match inputIterators files job.inputs with
  | .error _ => []
  | .ok iterators =>
      match mergeTables iterators drops with
      | .error _ => []
      | .ok merged => merged

/-- Merging held inputs succeeds and gives a valid run with the newest entries. -/
theorem mergedEntries_spec {sound : fmt.Sound Fits} {files : UInt64 → Option fmt.File} {job : CompactionJob fmt}
    (held : ∀ input ∈ job.inputs, Held sound files input) (drops : Bool) :
    (∃ iterators, inputIterators files job.inputs = .ok iterators ∧
      mergeTables iterators drops = .ok (mergedEntries files job drops)) ∧
      ValidRun (mergedEntries files job drops) ∧
      ∀ key, valueAt (mergedEntries files job drops) key =
        keepEntry drops (lookupIn (entriesOn files) job.inputs key) := by
  have iterators := inputIterators_of_held held
  have sorted : ∀ run ∈ job.inputs.map (entriesOn files), KeySorted run := by
    intro run member
    obtain ⟨input, isInput, rfl⟩ := List.mem_map.mp member
    exact (held input isInput).ranged.valid.sorted
  obtain ⟨out, merged, outSorted, outSpec⟩ := mergeTables_spec sorted drops
  have isOut : mergedEntries files job drops = out := by
    unfold mergedEntries
    rw [iterators]
    dsimp only
    rw [merged]
  have spec : ∀ key, valueAt out key = keepEntry drops (lookupIn (entriesOn files) job.inputs key) := by
    intro key
    rw [outSpec key, newestAt, List.findSome?_map]
    rfl
  rw [isOut]
  refine ⟨⟨_, iterators, merged⟩, ⟨outSorted, fun pair member => ?_⟩, spec⟩
  have found := outSorted.valueAt_of_mem member
  rw [spec] at found
  obtain ⟨inInputs, _⟩ := Option.filter_eq_some_iff.mp found
  obtain ⟨input, isInput, inInput⟩ := exists_of_findSome? inInputs
  exact (held input isInput).ranged.valid.keysNonempty _ (mem_of_valueAt inInput)

theorem writeOutput_eq (sound : fmt.Sound Fits) (snapshot : Version fmt) {job : CompactionJob fmt}
    (outputId : UInt64) (db : Db fmt) (held : ∀ input ∈ job.inputs, Held sound db.disk.sst input) :
    writeOutput snapshot job outputId db =
      createTable outputId
        (mergedEntries db.disk.sst job (dropTombstones snapshot db.engine.options job)) db := by
  obtain ⟨⟨iterators, opened, merged⟩, _⟩ := mergedEntries_spec held
    (dropTombstones snapshot db.engine.options job)
  unfold writeOutput
  rw [opened]
  dsimp only
  rw [merged]

/-- A successful merge wrote the merged entries of the inputs. -/
theorem writeOutput_of_ok {snapshot : Version fmt} {job : CompactionJob fmt} {outputId : UInt64}
    {db db' : Db fmt} {output : SsTable fmt}
    (written : writeOutput snapshot job outputId db = .ok output db') :
    ∃ file handle faults,
      fmt.create db.engine.options (mergedEntries db.disk.sst job
        (dropTombstones snapshot db.engine.options job)) = .ok (file, handle) ∧
      output = ⟨outputId, handle⟩ ∧
      db' = { db with disk := db.disk.withTable outputId file, faults := faults } := by
  unfold writeOutput at written
  cases opened : inputIterators db.disk.sst job.inputs with
  | error cause => rw [opened] at written; cases written
  | ok iterators =>
      rw [opened] at written
      dsimp only at written
      cases merged : mergeTables iterators (dropTombstones snapshot db.engine.options job) with
      | error cause => rw [merged] at written; cases written
      | ok entries =>
          rw [merged] at written
          have isMerge : mergedEntries db.disk.sst job
              (dropTombstones snapshot db.engine.options job) = entries := by
            rw [mergedEntries, opened]
            dsimp only
            rw [merged]
          rw [isMerge]
          exact createTable_of_ok written

theorem writeOutput_noFaults (sound : fmt.Sound Fits) {snapshot : Version fmt}
    {job : CompactionJob fmt} (outputId : UInt64) (file : fmt.File) (handle : fmt.Handle)
    {disk : Disk fmt} {engine : Engine fmt}
    (held : ∀ input ∈ job.inputs, Held sound disk.sst input)
    (created : fmt.create engine.options (mergedEntries disk.sst job
      (dropTombstones snapshot engine.options job)) = .ok (file, handle)) :
    writeOutput snapshot job outputId ⟨disk, engine, []⟩ =
      .ok ⟨outputId, handle⟩ ⟨disk.withTable outputId file, engine, []⟩ :=
  (writeOutput_eq sound snapshot outputId ⟨disk, engine, []⟩ held).trans
    (createTable_noFaults created)

end LsmStore
