import LsmStore.Engine
import LsmStore.Install

/-!
# What the engine's actions do

For each action one lemma says what a successful run left behind, and one says
that it succeeds when no file operation fails.  The proofs about the engine use
these lemmas and not the definitions of the actions.
-/

set_option autoImplicit false

namespace LsmStore

open Foundation

variable {fmt : TableFormat}

/-! ## Sequencing -/

theorem bind_eq_ok {α β : Type} {first : Action fmt α} {next : α → Action fmt β}
    {db db' : Db fmt} {value : β} :
    (first >>= next) db = .ok value db' ↔
      ∃ middle mid, first db = .ok middle mid ∧ next middle mid = .ok value db' := by
  change EStateM.bind first next db = .ok value db' ↔ _
  unfold EStateM.bind
  cases first db with
  | ok middle mid =>
      constructor
      · exact fun done => ⟨middle, mid, rfl, done⟩
      · rintro ⟨_, _, same, done⟩
        cases same
        exact done
  | error failure mid =>
      constructor
      · exact fun impossible => nomatch impossible
      · rintro ⟨_, _, impossible, _⟩
        cases impossible

theorem bind_of_ok {α β : Type} {first : Action fmt α} {next : α → Action fmt β}
    {db mid : Db fmt} {middle : α} (done : first db = .ok middle mid) :
    (first >>= next) db = next middle mid := by
  change EStateM.bind first next db = _
  rw [EStateM.bind, done]

theorem bind_of_error {α β : Type} {first : Action fmt α} {next : α → Action fmt β}
    {db mid : Db fmt} {failure : Failure} (failed : first db = .error failure mid) :
    (first >>= next) db = .error failure mid := by
  change EStateM.bind first next db = _
  rw [EStateM.bind, failed]

/-! ## File operations -/

theorem walSync_of_ok {db db' : Db fmt} {value : Unit} (done : walSync db = .ok value db') :
    ∃ faults, db' = { db with faults := faults } := by
  obtain ⟨disk, engine, faults⟩ := db
  cases faults with
  | nil => cases done; exact ⟨[], rfl⟩
  | cons verdict rest =>
      cases verdict with
      | done => cases done; exact ⟨rest, rfl⟩
      | fail progress => cases done

theorem walAppend_noFaults {operation : Operation} (fits : operation.Fits) (disk : Disk fmt)
    (engine : Engine fmt) :
    walAppend operation ⟨disk, engine, []⟩ =
      .ok () ⟨{ disk with wal := disk.wal ++ record operation }, engine, []⟩ := by
  have encoded : (Wal.mk disk.wal).append operation =
      .ok (disk.wal.length, ⟨disk.wal ++ record operation⟩) :=
    Wal.append_eq_ok_iff.mpr ⟨fits, rfl, rfl⟩
  unfold walAppend
  dsimp only
  rw [encoded]
  rfl

theorem walTruncate_of_ok {db db' : Db fmt} {value : Unit} (done : walTruncate db = .ok value db') :
    ∃ faults, db' = { db with disk := { db.disk with wal := [] }, faults := faults } := by
  obtain ⟨disk, engine, faults⟩ := db
  cases faults with
  | nil => cases done; exact ⟨[], rfl⟩
  | cons verdict rest =>
      cases verdict with
      | done => cases done; exact ⟨rest, rfl⟩
      | fail progress => cases progress <;> cases done

theorem manifestAppend_of_ok {record : ManifestRecord} {db db' : Db fmt} {value : Unit}
    (done : manifestAppend record db = .ok value db') :
    ∃ faults, db' =
      { db with
        disk := { db.disk with manifest := db.disk.manifest ++ record.encode }
        faults := faults } := by
  obtain ⟨disk, engine, faults⟩ := db
  cases faults with
  | nil => cases done; exact ⟨[], rfl⟩
  | cons verdict rest =>
      cases verdict with
      | done => cases done; exact ⟨rest, rfl⟩
      | fail progress => cases done

/-- A completed table file. -/
def Disk.withTable (disk : Disk fmt) (id : UInt64) (file : fmt.File) : Disk fmt :=
  { disk with tmp := disk.tmp.erase id, sst := Function.update disk.sst id (some file) }

theorem createTable_of_ok {id : UInt64} {entries : List (Key × Entry)} {db db' : Db fmt}
    {table : SsTable fmt} (done : createTable id entries db = .ok table db') :
    ∃ file handle faults, fmt.create db.engine.options entries = .ok (file, handle) ∧
      table = ⟨id, handle⟩ ∧
      db' = { db with disk := db.disk.withTable id file, faults := faults } := by
  obtain ⟨disk, engine, faults⟩ := db
  unfold createTable at done
  cases created : fmt.create engine.options entries with
  | error failure => rw [created] at done; cases done
  | ok made =>
      obtain ⟨file, handle⟩ := made
      rw [created] at done
      refine ⟨file, handle, ?_⟩
      cases faults with
      | nil => cases done; exact ⟨[], rfl, rfl, rfl⟩
      | cons verdict rest =>
          cases verdict with
          | done => cases done; exact ⟨rest, rfl, rfl, rfl⟩
          | fail progress =>
              match progress, done with
              | 0, done => cases done
              | 1, done => cases done
              | _ + 2, done => cases done

theorem createTable_noFaults {id : UInt64} {entries : List (Key × Entry)} {disk : Disk fmt}
    {engine : Engine fmt} {file : fmt.File} {handle : fmt.Handle}
    (created : fmt.create engine.options entries = .ok (file, handle)) :
    createTable id entries ⟨disk, engine, []⟩ =
      .ok ⟨id, handle⟩ ⟨disk.withTable id file, engine, []⟩ := by
  unfold createTable
  rw [created]
  rfl

/-! ## The manifest -/

/-- The manifest after an id has been allocated. -/
def Manifest.allocated (manifest : Manifest) : Manifest :=
  { manifest with nextTableId := manifest.nextTableId + 1 }

/-- The manifest with a table added at the end. -/
def Manifest.added (manifest : Manifest) (id : UInt64) (level : UInt32) : Manifest :=
  { manifest with tables := manifest.tables ++ [(id, level)] }

/-- The manifest without the tables of some ids. -/
def Manifest.removed (manifest : Manifest) (ids : List UInt64) : Manifest :=
  { manifest with tables := manifest.tables.filter fun table => !ids.contains table.1 }

theorem nextTableId_of_ok {db db' : Db fmt} {id : UInt64} (done : nextTableId db = .ok id db') :
    id = db.engine.manifest.nextTableId ∧ id.toNat + 1 ≤ u64Max ∧
      ∃ faults, db' =
        { disk :=
            { db.disk with
              manifest := db.disk.manifest ++ (ManifestRecord.setNextTableId (id + 1)).encode }
          engine := { db.engine with manifest := db.engine.manifest.allocated }
          faults := faults } := by
  unfold nextTableId at done
  obtain ⟨state, _, isState, done⟩ := bind_eq_ok.mp done
  cases isState
  dsimp only at done
  split at done
  · obtain ⟨_, _, impossible, _⟩ := bind_eq_ok.mp done
    cases impossible
  · rename_i small
    obtain ⟨_, _, changed, done⟩ := bind_eq_ok.mp done
    cases changed
    obtain ⟨_, _, appended, returned⟩ := bind_eq_ok.mp done
    obtain ⟨faults, rfl⟩ := manifestAppend_of_ok appended
    cases returned
    exact ⟨rfl, Nat.not_lt.mp small, faults, rfl⟩

theorem nextTableId_noFaults {disk : Disk fmt} {engine : Engine fmt}
    (room : engine.manifest.nextTableId.toNat + 1 ≤ u64Max) :
    nextTableId ⟨disk, engine, []⟩ =
      .ok engine.manifest.nextTableId
        ⟨{ disk with
            manifest := disk.manifest ++
              (ManifestRecord.setNextTableId (engine.manifest.nextTableId + 1)).encode },
          { engine with manifest := engine.manifest.allocated }, []⟩ := by
  unfold nextTableId
  rw [bind_of_ok (show current (⟨disk, engine, []⟩ : Db fmt) = .ok _ _ from rfl)]
  dsimp only
  rw [if_neg (Nat.not_lt.mpr room)]
  rfl

theorem addTable_of_ok {id : UInt64} {level : UInt32} {db db' : Db fmt} {value : Unit}
    (done : addTable id level db = .ok value db') :
    db.engine.manifest.lists id = false ∧
      ∃ faults, db' =
        { disk :=
            { db.disk with
              manifest := db.disk.manifest ++ (ManifestRecord.addTable id level).encode }
          engine := { db.engine with manifest := db.engine.manifest.added id level }
          faults := faults } := by
  unfold addTable at done
  obtain ⟨state, _, isState, done⟩ := bind_eq_ok.mp done
  cases isState
  dsimp only at done
  split at done
  · obtain ⟨_, _, impossible, _⟩ := bind_eq_ok.mp done
    cases impossible
  · rename_i unlisted
    obtain ⟨_, _, appended, changed⟩ := bind_eq_ok.mp done
    obtain ⟨faults, rfl⟩ := manifestAppend_of_ok appended
    cases changed
    exact ⟨by simpa using unlisted, faults, rfl⟩

theorem addTable_noFaults {id : UInt64} {level : UInt32} {disk : Disk fmt} {engine : Engine fmt}
    (unlisted : engine.manifest.lists id = false) :
    addTable id level ⟨disk, engine, []⟩ =
      .ok ()
        ⟨{ disk with manifest := disk.manifest ++ (ManifestRecord.addTable id level).encode },
          { engine with manifest := engine.manifest.added id level }, []⟩ := by
  unfold addTable
  rw [bind_of_ok (show current (⟨disk, engine, []⟩ : Db fmt) = .ok _ _ from rfl)]
  dsimp only
  rw [if_neg (by simp [unlisted])]
  rfl

theorem Manifest.removed_nil (manifest : Manifest) : manifest.removed [] = manifest := by
  simp [Manifest.removed]

theorem Manifest.removed_cons (manifest : Manifest) (id : UInt64) (rest : List UInt64) :
    ({ manifest with tables := manifest.tables.filter fun table => table.1 != id }
      : Manifest).removed rest = manifest.removed (id :: rest) := by
  simp only [Manifest.removed, List.filter_filter]
  congr 1
  refine List.filter_congr fun table _ => ?_
  by_cases same : table.1 = id <;> simp [same]

theorem removeTables_of_ok {ids : List UInt64} {db db' : Db fmt} {value : Unit}
    (done : removeTables ids db = .ok value db') :
    ∃ faults, db' =
      { disk :=
          { db.disk with
            manifest := db.disk.manifest ++ manifestLog (ids.map .removeTable) }
        engine := { db.engine with manifest := db.engine.manifest.removed ids }
        faults := faults } := by
  induction ids generalizing db with
  | nil =>
      cases done
      refine ⟨db'.faults, ?_⟩
      simp only [List.map_nil, manifestLog, List.flatMap_nil, List.append_nil, Manifest.removed_nil]
  | cons id rest ih =>
      unfold removeTables at done
      obtain ⟨_, _, appended, done⟩ := bind_eq_ok.mp done
      obtain ⟨_, rfl⟩ := manifestAppend_of_ok appended
      obtain ⟨_, _, changed, done⟩ := bind_eq_ok.mp done
      cases changed
      obtain ⟨faults, rfl⟩ := ih done
      refine ⟨faults, ?_⟩
      simp [manifestLog, Manifest.removed_cons]

theorem removeTables_noFaults (ids : List UInt64) (disk : Disk fmt) (engine : Engine fmt) :
    removeTables ids ⟨disk, engine, []⟩ =
      .ok ()
        ⟨{ disk with manifest := disk.manifest ++ manifestLog (ids.map .removeTable) },
          { engine with manifest := engine.manifest.removed ids }, []⟩ := by
  induction ids generalizing disk engine with
  | nil => simp [removeTables, manifestLog, Manifest.removed_nil, pure, EStateM.pure]
  | cons id rest ih =>
      have first : removeTables (id :: rest) (⟨disk, engine, []⟩ : Db fmt) =
          removeTables rest
            ⟨{ disk with manifest := disk.manifest ++ (ManifestRecord.removeTable id).encode },
              { engine with
                manifest :=
                  { engine.manifest with
                    tables := engine.manifest.tables.filter fun table => table.1 != id } },
              []⟩ := rfl
      rw [first, ih]
      simp [manifestLog, Manifest.removed_cons]

/-! ## Cleaning up after a job -/

/-- A table of the snapshot has an owner besides the loop that cleans up. -/
theorem strongCount_ne_one {snapshot current : Version fmt} {table : SsTable fmt}
    (member : table ∈ snapshot.tablesNewestFirst) : strongCount snapshot current table ≠ 1 := by
  have counted : 0 < snapshot.tablesNewestFirst.countP fun other => other.id == table.id :=
    List.countP_pos_iff.mpr ⟨table, member, by simp⟩
  unfold strongCount
  omega

/-- No input file is removed: the snapshot owns every input. -/
theorem removeInputs_eq {snapshot : Version fmt} {inputs : List (SsTable fmt)}
    (inSnapshot : ∀ input ∈ inputs, input ∈ snapshot.tablesNewestFirst) (db : Db fmt) :
    removeInputs snapshot inputs db = .ok () db := by
  induction inputs with
  | nil => rfl
  | cons input rest ih =>
      unfold removeInputs
      rw [bind_of_ok (show current db = .ok db db from rfl)]
      have owned : strongCount snapshot db.engine.version input ≠ 1 :=
        strongCount_ne_one (inSnapshot input List.mem_cons_self)
      dsimp only
      rw [if_neg owned]
      exact ih fun later member => inSnapshot later (List.mem_cons_of_mem _ member)

end LsmStore
