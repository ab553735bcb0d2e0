import LsmStore.ByteTables
import LsmStore.KeptRuns
import LsmStore.Reclaim
import LsmStore.TableImage

/-!
# The block cache is transparent

A cached block is found under the id of its table and its offset in the table's
file; it is never invalidated.  It stays what the file holds because an id is
given out once in a process, also when the flush or the pass that asked for it
fails, and because a table file is never written again.

`Housed` is the invariant: the table files have ids that were given out, every
table of the version is the one that was written or opened under its id, and
every resident block is what its file holds.  Every command keeps it, whatever
file operations fail (`Sheltered.attempt`, `Sheltered.attemptAll`).  A lookup through the cache then
returns what a lookup without it returns (`cache_transparent`), as long as the
rows of a table have different offsets.  A data block whose length is a multiple
of `2 ^ 32` is recorded with length 0, and the row behind it gets the same offset;
`cache_answers_for_another_block` is a run in which the cache then answers a
lookup that fails without it.
-/

set_option autoImplicit false

namespace LsmStore

open Foundation

/-! ## Loading a block through a cache -/

namespace TableHandle

variable {handle : TableHandle} {id : UInt64} {file : Option Bytes} {cache : BlockCache}

/-- Through a cache that holds blocks of the file, a block is loaded as without it. -/
theorem loadBlock_transparent {position : Fin handle.index.length}
    (hit : ∀ block, cache.map.lookup ⟨id, (handle.index.get position).offset⟩ = some block →
      readBlock file (handle.index.get position) = .ok block) :
    (handle.loadBlock id file position (some cache)).1 =
      readBlock file (handle.index.get position) := by
  simp only [loadBlock, BlockCache.get]
  cases found : cache.map.lookup ⟨id, (handle.index.get position).offset⟩ with
  | some block => exact (hit block found).symm
  | none =>
      dsimp only
      cases readBlock file (handle.index.get position) <;> rfl

/-- **A lookup through such a cache** returns what a lookup without it returns. -/
theorem get_transparent (key : Key)
    (hit : ∀ row ∈ handle.index, ∀ block, cache.map.lookup ⟨id, row.offset⟩ = some block →
      readBlock file row = .ok block) :
    (handle.get id file key (some cache)).1 = (handle.get id file key none).1 := by
  unfold get
  split_ifs
  · rfl
  · rfl
  · cases handle.blockForKey key with
    | none => rfl
    | some position =>
        have loads := @loadBlock_transparent handle id file cache position
          (hit _ (List.get_mem _ _))
        have plain : (handle.loadBlock id file position none).1 =
            readBlock file (handle.index.get position) := rfl
        dsimp only
        rcases through : handle.loadBlock id file position (some cache) with ⟨found, after⟩
        rcases without : handle.loadBlock id file position none with ⟨found', after'⟩
        rw [through] at loads
        rw [without] at plain
        obtain rfl : found = found' := loads.trans plain.symm
        cases found <;> rfl

/-- What a lookup leaves in the cache are blocks that were there and blocks that it
has read. -/
theorem get_keeps {property : BlockKey → BlockData → Prop} (keeps : cache.Keeps property)
    (key : Key)
    (fitting : ∀ row ∈ handle.index, ∀ block, readBlock file row = .ok block →
      property ⟨id, row.offset⟩ block) :
    ∃ after, (handle.get id file key (some cache)).2 = some after ∧ after.Keeps property := by
  unfold get
  split_ifs
  · exact ⟨cache, rfl, keeps⟩
  · exact ⟨cache, rfl, keeps⟩
  · cases handle.blockForKey key with
    | none => exact ⟨cache, rfl, keeps⟩
    | some position =>
        have loaded : ∃ after, (handle.loadBlock id file position (some cache)).2 = some after ∧
            after.Keeps property := by
          simp only [loadBlock]
          have kept := keeps.get ⟨id, (handle.index.get position).offset⟩
          rcases isGet : cache.get ⟨id, (handle.index.get position).offset⟩ with ⟨found, after⟩
          rw [isGet] at kept
          cases found with
          | some block => exact ⟨after, rfl, kept⟩
          | none =>
              dsimp only
              cases read : readBlock file (handle.index.get position) with
              | error cause => exact ⟨after, rfl, kept⟩
              | ok block =>
                  exact ⟨_, rfl, kept.insert (fitting _ (List.get_mem _ _) block read)⟩
        obtain ⟨after, isAfter, kept⟩ := loaded
        refine ⟨after, ?_, kept⟩
        dsimp only
        rcases isLoad : handle.loadBlock id file position (some cache) with ⟨found, rest⟩
        rw [isLoad] at isAfter
        cases found <;> exact isAfter

end TableHandle

/-! ## The offsets of a table -/

/-- The rows of a table lie at different offsets. -/
def TableHandle.Spread (handle : TableHandle) : Prop :=
  (handle.index.map IndexEntry.offset).Nodup

/-- No data block of a table has a length that is a multiple of `2 ^ 32`. -/
def Spaced (options : Options) (entries : List (Key × Entry)) : Prop :=
  ∀ block ∈ cutBlocks options.blockSize
      (entries.insertionSort fun first second => first.1 ≤ second.1),
    (blockBytes block).length % 2 ^ 32 ≠ 0

/-- Rows of blocks with such lengths lie at increasing offsets. -/
theorem offsets_rowsFrom {offset : Nat} {blocks : List BlockData}
    (near : offset + countedLength blocks < 2 ^ 64)
    (spaced : ∀ block ∈ blocks, (blockBytes block).length % 2 ^ 32 ≠ 0) :
    ((rowsFrom offset blocks).map IndexEntry.offset).Nodup := by
  induction blocks generalizing offset with
  | nil => exact List.nodup_nil
  | cons block rest ih =>
      have counted : countedLength (block :: rest) =
          (UInt32.ofNat (blockBytes block).length).toNat + countedLength rest := rfl
      have positive : 0 < (UInt32.ofNat (blockBytes block).length).toNat := by
        rw [UInt32.toNat_ofNat']
        exact Nat.pos_of_ne_zero (spaced block List.mem_cons_self)
      rw [rowsFrom, List.map_cons, List.nodup_cons]
      refine ⟨?_, ih (by omega) fun other member => spaced other (List.mem_cons_of_mem _ member)⟩
      intro again
      obtain ⟨row, member, same⟩ := List.mem_map.mp again
      have behind := le_offset_rowsFrom (show offset +
        (UInt32.ofNat (blockBytes block).length).toNat + countedLength rest < 2 ^ 64 by omega)
        row member
      have here : row.offset.toNat = offset := by
        rw [same]
        exact toNat_ofNat_of_lt (by omega)
      omega

/-- **The rows of a created table lie at different offsets** if no length of a block
is a multiple of `2 ^ 32`. -/
theorem spread_of_create {sizing : BloomSizing} {options : Options} {entries : List (Key × Entry)}
    {file : Bytes} {handle : TableHandle} (spaced : Spaced options entries)
    (created : TableHandle.create sizing entries options.bloomFalsePositiveRate options.blockSize =
      .ok (file, handle)) : handle.Spread := by
  rw [TableHandle.create] at created
  rcases TableWriter.write_new options.blockSize
      (entries.insertionSort fun first second => first.1 ≤ second.1) with
    ⟨writer, pushed, finished, _, near⟩ | ⟨failed | ⟨writer, pushed, failed⟩, _⟩
  · simp only [pushed, finished] at created
    split at created
    · cases created
    · cases created
      have max : u64Max = 2 ^ 64 - 1 := rfl
      exact offsets_rowsFrom (by omega) spaced
  · simp only [failed] at created
    cases created
  · simp only [pushed, failed] at created
    cases created

/-! ## The invariant -/

section Housing

variable {sizing : BloomSizing}

/-- The handle is one that creating or opening the file returned. -/
def HandleOf (sizing : BloomSizing) (file : Bytes) (handle : TableHandle) : Prop :=
  (∃ entries bloomFp blockSize,
    TableHandle.create sizing entries bloomFp blockSize = .ok (file, handle)) ∨
  TableHandle.openFile file = .ok handle

/-- The table file of an id has the handle. -/
def Filed (sizing : BloomSizing) (files : UInt64 → Option Bytes) (id : UInt64)
    (handle : TableHandle) : Prop :=
  ∃ file, files id = some file ∧ HandleOf sizing file handle

/-- The block is what the file of its table holds at its offset: some row of the
table's index has this offset, and decoding what the row describes gives the block. -/
def Decodes (sizing : BloomSizing) (owner : UInt64 → Option TableHandle)
    (files : UInt64 → Option Bytes) (key : BlockKey) (block : BlockData) : Prop :=
  ∃ handle, owner key.tableId = some handle ∧ Filed sizing files key.tableId handle ∧
    ∃ row ∈ handle.index, row.offset = key.offset ∧ readBlock (files key.tableId) row = .ok block

/-- The table files have ids that were given out, the tables of the version are those
written or opened under their ids, and the resident blocks are blocks of their files. -/
structure Housed (owner : UInt64 → Option TableHandle) (db : Db (byteTables sizing)) : Prop where
  below : ∀ id, db.disk.sst id ≠ none → id.toNat < db.engine.manifest.nextTableId.toNat
  live : ∀ table ∈ db.engine.version.tablesNewestFirst, owner table.id = some table.handle ∧
    Filed sizing db.disk.sst table.id table.handle ∧ TableHandle.Spread table.handle
  cached : BlockCache.Keeps (Decodes sizing owner db.disk.sst) db.engine.cache

/-- Some assignment of handles to ids houses the database. -/
def Sheltered (db : Db (byteTables sizing)) : Prop := ∃ owner, Housed owner db

/-- However it ends, the action leaves a sheltered database. -/
def Shelters {α : Type} (action : Action (byteTables sizing) α) (db : Db (byteTables sizing)) :
    Prop :=
  Yields action db (fun _ after => Sheltered after) (fun _ after => Sheltered after)

namespace Housed

variable {owner : UInt64 → Option TableHandle} {db db' : Db (byteTables sizing)}

/-- Changes elsewhere, and tables taken out of the version. -/
theorem frame (housed : Housed owner db) (sst : db'.disk.sst = db.disk.sst)
    (cache : db'.engine.cache = db.engine.cache)
    (version : ∀ table ∈ db'.engine.version.tablesNewestFirst,
      table ∈ db.engine.version.tablesNewestFirst)
    (next : db.engine.manifest.nextTableId.toNat ≤ db'.engine.manifest.nextTableId.toNat) :
    Housed owner db' where
  below := by
    intro id exists_
    rw [sst] at exists_
    exact lt_of_lt_of_le (housed.below id exists_) next
  live := by
    intro table member
    rw [sst]
    exact housed.live table (version table member)
  cached := by
    rw [sst, cache]
    exact housed.cached

theorem planned (housed : Housed owner db) (plan : List Verdict) :
    Housed owner (db.planned plan) :=
  housed.frame rfl rfl (fun _ member => member) (le_refl _)

theorem unused (housed : Housed owner db) {id : UInt64}
    (ahead : db.engine.manifest.nextTableId.toNat ≤ id.toNat) : db.disk.sst id = none := by
  by_contra exists_
  exact absurd (housed.below id exists_) (Nat.not_lt.mpr ahead)

/-- A file under an id that has none, with a handle for it. -/
theorem withTable (housed : Housed owner db) {id : UInt64} (absent : db.disk.sst id = none)
    (given : id.toNat < db.engine.manifest.nextTableId.toNat) (file : Bytes)
    (handle : Option TableHandle) (faults : List Verdict) :
    Housed (Function.update owner id handle)
      { db with disk := db.disk.withTable id file, faults := faults } := by
  have elsewhere : ∀ {other : UInt64} {found : TableHandle},
      Filed sizing db.disk.sst other found → other ≠ id := by
    rintro other found ⟨held, isFile, _⟩ rfl
    rw [absent] at isFile
    cases isFile
  have files : ∀ {other : UInt64}, other ≠ id →
      (db.disk.withTable id file).sst other = db.disk.sst other :=
    fun different => Function.update_of_ne different _ _
  refine ⟨?_, ?_, ?_⟩
  · intro other exists_
    by_cases same : other = id
    · rw [same]
      exact given
    · dsimp only at exists_
      rw [files same] at exists_
      exact housed.below other exists_
  · intro table member
    obtain ⟨owned, filed, spread⟩ := housed.live table member
    have different := elsewhere filed
    refine ⟨?_, ?_, spread⟩
    · rw [Function.update_of_ne different, owned]
    · unfold Filed
      rw [files different]
      exact filed
  · refine housed.cached.mono ?_
    rintro key block ⟨found, owned, filed, row, isRow, same, read⟩
    have different := elsewhere filed
    refine ⟨found, ?_, ?_, row, isRow, same, ?_⟩
    · rw [Function.update_of_ne different, owned]
    · unfold Filed
      rw [files different]
      exact filed
    · rw [files different]
      exact read

/-- A table whose handle belongs to its file enters the version. -/
theorem enter (housed : Housed owner db) {version : Version (byteTables sizing)}
    {table : SsTable (byteTables sizing)} (owned : owner table.id = some table.handle)
    (filed : Filed sizing db.disk.sst table.id table.handle)
    (spread : TableHandle.Spread table.handle)
    (entered : ∀ other ∈ version.tablesNewestFirst,
      other = table ∨ other ∈ db.engine.version.tablesNewestFirst) :
    Housed owner { db with engine := { db.engine with version := version } } where
  below := housed.below
  live := by
    intro other member
    rcases entered other member with rfl | member
    · exact ⟨owned, filed, spread⟩
    · exact housed.live other member
  cached := housed.cached

end Housed

/-! ## What actions keep -/

section Actions

variable {owner : UInt64 → Option TableHandle} {db : Db (byteTables sizing)}

/-- Allocating an id gives one that has no file. -/
theorem Housed.nextTableId (housed : Housed owner db) :
    Yields LsmStore.nextTableId db
      (fun id mid => Housed owner mid ∧ mid.disk.sst id = none ∧
        id.toNat < mid.engine.manifest.nextTableId.toNat ∧ mid.disk.sst = db.disk.sst ∧
        mid.engine.options = db.engine.options ∧ mid.engine.version = db.engine.version)
      (fun _ mid => Sheltered mid) := by
  refine Yields.intro ?_ ?_
  · intro id mid done
    obtain ⟨rfl, room, faults, rfl⟩ := nextTableId_of_ok done
    have next := toNat_succ room
    refine ⟨housed.frame rfl rfl (fun _ member => member) ?_, housed.unused (le_refl _), ?_, rfl,
      rfl, rfl⟩
    · exact next ▸ Nat.le_succ _
    · exact next ▸ Nat.lt_succ_self _
  · intro failure mid failed
    rcases nextTableId_of_error failed with ⟨_, _, rfl⟩ | ⟨_, room, _, faults, _, rfl⟩
    · exact ⟨owner, housed⟩
    · have next := toNat_succ room
      exact ⟨owner, housed.frame rfl rfl (fun _ member => member) (next ▸ Nat.le_succ _)⟩

/-- Creating a table under an id without a file, with different offsets of its rows. -/
theorem Housed.createTable (housed : Housed owner db) {id : UInt64}
    (absent : db.disk.sst id = none) (given : id.toNat < db.engine.manifest.nextTableId.toNat)
    {entries : List (Key × Entry)} (spaced : Spaced db.engine.options entries) :
    Yields (LsmStore.createTable id entries) db
      (fun table made => table.id = id ∧ made.engine = db.engine ∧ ∃ owner', Housed owner' made ∧
        owner' id = some table.handle ∧ Filed sizing made.disk.sst id table.handle ∧
        TableHandle.Spread table.handle)
      (fun _ made => Sheltered made) := by
  refine Yields.intro ?_ ?_
  · intro table made done
    obtain ⟨file, handle, faults, created, rfl, rfl⟩ := createTable_of_ok done
    refine ⟨rfl, rfl, _, housed.withTable absent given file (some handle) faults,
      Function.update_self _ _ _, ?_, spread_of_create spaced created⟩
    exact ⟨file, Function.update_self _ _ _, .inl ⟨_, _, _, created⟩⟩
  · intro failure made failed
    rcases createTable_of_error failed with
      ⟨_, rfl⟩ | ⟨file, handle, _, _, disk, faults, rfl, rfl | rfl | rfl⟩
    · exact ⟨owner, housed⟩
    · exact ⟨owner, housed.planned faults⟩
    · exact ⟨owner, housed.frame rfl rfl (fun _ member => member) (le_refl _)⟩
    · exact ⟨_, housed.withTable absent given file none faults⟩

/-! Actions on the log and on the manifest's tables leave files, version, cache and
the next id alone. -/

/-- Files, version, cache, memtable, next id and options are the same. -/
structure Elsewhere (before after : Db (byteTables sizing)) : Prop
    extends Untouched before after where
  cache_eq : after.engine.cache = before.engine.cache
  memtable_eq : after.engine.memtable = before.engine.memtable

theorem Elsewhere.trans {before mid after : Db (byteTables sizing)} (first : Elsewhere before mid)
    (second : Elsewhere mid after) : Elsewhere before after where
  options_eq := second.options_eq.trans first.options_eq
  sst_eq := second.sst_eq.trans first.sst_eq
  version_eq := second.version_eq.trans first.version_eq
  next_eq := second.next_eq.trans first.next_eq
  cache_eq := second.cache_eq.trans first.cache_eq
  memtable_eq := second.memtable_eq.trans first.memtable_eq

theorem Housed.elsewhere {after : Db (byteTables sizing)} (housed : Housed owner db)
    (same : Elsewhere db after) : Housed owner after :=
  housed.frame same.sst_eq same.cache_eq (fun _ member => same.version_eq ▸ member)
    (by rw [same.next_eq])

/-- However it ends, the action changes something else. -/
def Passes {α : Type} (action : Action (byteTables sizing) α) : Prop :=
  ∀ db, Yields action db (fun _ after => Elsewhere db after) (fun _ after => Elsewhere db after)

theorem Passes.bind {α β : Type} {first : Action (byteTables sizing) α}
    {next : α → Action (byteTables sizing) β} (passes : Passes first)
    (then_ : ∀ value, Passes (next value)) : Passes (first >>= next) := by
  intro db
  refine (passes db).bind fun value mid same => ?_
  exact (then_ value mid).imp (fun _ _ => same.trans) (fun _ _ => same.trans)

theorem Passes.shelters {α : Type} {action : Action (byteTables sizing) α} (passes : Passes action)
    (housed : Housed owner db) : Shelters action db :=
  (passes db).imp (fun _ _ same => ⟨owner, housed.elsewhere same⟩)
    (fun _ _ same => ⟨owner, housed.elsewhere same⟩)

theorem passes_walAppend (operation : Operation) :
    Passes (walAppend operation : Action (byteTables sizing) Unit) := by
  refine fun db => Yields.intro (fun done => ?_) (fun failed => ?_)
  · obtain ⟨_, _, rfl⟩ := walAppend_of_ok done
    exact ⟨⟨rfl, rfl, rfl, rfl⟩, rfl, rfl⟩
  · rcases walAppend_of_error failed with ⟨_, rfl⟩ | ⟨_, _, _, _, _, rfl⟩ <;>
      exact ⟨⟨rfl, rfl, rfl, rfl⟩, rfl, rfl⟩

theorem passes_walSync : Passes (walSync : Action (byteTables sizing) Unit) := by
  refine fun db => Yields.intro (fun done => ?_) (fun failed => ?_)
  · obtain ⟨_, rfl⟩ := walSync_of_ok done
    exact ⟨⟨rfl, rfl, rfl, rfl⟩, rfl, rfl⟩
  · obtain ⟨_, _, rfl⟩ := walSync_of_error failed
    exact ⟨⟨rfl, rfl, rfl, rfl⟩, rfl, rfl⟩

theorem passes_walTruncate : Passes (walTruncate : Action (byteTables sizing) Unit) := by
  refine fun db => Yields.intro (fun done => ?_) (fun failed => ?_)
  · obtain ⟨_, rfl⟩ := walTruncate_of_ok done
    exact ⟨⟨rfl, rfl, rfl, rfl⟩, rfl, rfl⟩
  · obtain ⟨_, _, _, _, rfl⟩ := walTruncate_of_error failed
    exact ⟨⟨rfl, rfl, rfl, rfl⟩, rfl, rfl⟩

theorem passes_addTable (id : UInt64) (level : UInt32) :
    Passes (addTable id level : Action (byteTables sizing) Unit) := by
  refine fun db => Yields.intro (fun done => ?_) (fun failed => ?_)
  · obtain ⟨_, _, rfl⟩ := addTable_of_ok done
    exact ⟨⟨rfl, rfl, rfl, rfl⟩, rfl, rfl⟩
  · rcases addTable_of_error failed with ⟨_, _, rfl⟩ | ⟨_, _, _, _, rfl⟩ <;>
      exact ⟨⟨rfl, rfl, rfl, rfl⟩, rfl, rfl⟩

theorem passes_removeTables (ids : List UInt64) :
    Passes (removeTables ids : Action (byteTables sizing) Unit) := by
  refine fun db => Yields.intro (fun done => ?_) (fun failed => ?_)
  · obtain ⟨_, rfl⟩ := removeTables_of_ok done
    exact ⟨⟨rfl, rfl, rfl, rfl⟩, rfl, rfl⟩
  · obtain ⟨_, _, _, _, _, _, _, _, rfl⟩ := removeTables_of_error failed
    exact ⟨⟨rfl, rfl, rfl, rfl⟩, rfl, rfl⟩

theorem passes_recordCompaction (outputId : UInt64) (job : CompactionJob (byteTables sizing)) :
    Passes (recordCompaction outputId job) :=
  (passes_addTable _ _).bind fun _ => passes_removeTables _

/-- **A flush, however it ends.** -/
theorem Housed.flushMemtable (housed : Housed owner db)
    (spaced : Spaced db.engine.options db.engine.memtable.iter) :
    Shelters LsmStore.flushMemtable db := by
  have start : Yields current db (fun value mid => db = value ∧ db = mid)
      (fun _ after => Sheltered after) := ⟨rfl, rfl⟩
  refine start.bind ?_
  rintro _ _ ⟨rfl, rfl⟩
  by_cases empty : db.engine.memtable.isEmpty = true
  · rw [if_pos empty]
    exact passes_walSync.shelters housed
  · rw [if_neg empty]
    have freezes : Yields freeze db
        (fun value mid => db.engine.memtable.iter = value ∧ Housed owner mid ∧
          mid.engine.options = db.engine.options)
        (fun _ after => Sheltered after) :=
      ⟨rfl, housed.frame rfl rfl (fun _ member => member) (le_refl _), rfl⟩
    refine freezes.bind ?_
    rintro _ frozen ⟨rfl, housed, isOptions⟩
    refine housed.nextTableId.bind ?_
    rintro id mid ⟨housed', absent, given, _, options, _⟩
    have spaced' : Spaced mid.engine.options db.engine.memtable.iter := by
      rw [options, isOptions]
      exact spaced
    refine (housed'.createTable absent given spaced').bind ?_
    rintro table made ⟨rfl, _, owner', housed'', owned, filed, spread⟩
    have adds := (passes_addTable table.id 0 made).imp
      (fun _ listed same => (⟨housed''.elsewhere same, same.sst_eq ▸ filed⟩ :
        Housed owner' listed ∧ Filed sizing listed.disk.sst table.id table.handle))
      (fun _ listed same => (⟨owner', housed''.elsewhere same⟩ : Sheltered listed))
    refine adds.bind ?_
    rintro _ listed ⟨housed3, filed'⟩
    have pushes : Yields (pushFront table) listed (fun _ mid => Housed owner' mid)
        (fun _ after => Sheltered after) := by
      unfold Yields pushFront
      cases pushed : listed.engine.version.pushFront table with
      | error failure => exact ⟨owner', housed3⟩
      | ok version =>
          obtain ⟨tables, _⟩ := pushFront_eq_ok pushed
          refine housed3.enter owned filed' spread fun other member => ?_
          rw [tables] at member
          exact List.mem_cons.mp member
    refine pushes.bind ?_
    intro _ pushed housed4
    have truncates := (passes_walTruncate pushed).imp
      (fun _ after same => (housed4.elsewhere same))
      (fun _ after same => (⟨owner', housed4.elsewhere same⟩ : Sheltered after))
    refine truncates.bind ?_
    intro _ cut housed5
    exact ⟨owner', housed5.frame rfl rfl (fun _ member => member) (le_refl _)⟩

theorem Housed.flush (housed : Housed owner db)
    (spaced : Spaced db.engine.options db.engine.memtable.iter) : Shelters LsmStore.flush db := by
  refine (housed.flushMemtable spaced).bind ?_
  rintro _ mid ⟨owner', housed'⟩
  unfold Yields maybeRequestCompaction
  split_ifs
  · exact ⟨owner', housed'.frame rfl rfl (fun _ member => member) (le_refl _)⟩
  · exact ⟨owner', housed'⟩

/-- A write, which may flush. -/
theorem Housed.write (housed : Housed owner db) {operation : Operation}
    (spaced : Spaced db.engine.options (apply db.engine.memtable operation).iter) :
    Shelters (LsmStore.write operation) db := by
  refine ((passes_walAppend operation db).imp (fun _ _ same => same)
    fun _ after same => (⟨owner, housed.elsewhere same⟩ : Sheltered after)).bind ?_
  intro _ logged same
  have housed1 := housed.elsewhere same
  refine ((passes_walSync logged).imp (fun _ _ same => same)
    fun _ after same => (⟨owner, housed1.elsewhere same⟩ : Sheltered after)).bind ?_
  intro _ synced same'
  have housed2 := housed1.elsewhere same'
  have applies : Yields (applyOperation operation) synced
      (fun _ mid => Housed owner mid ∧ mid.engine.options = db.engine.options ∧
        mid.engine.memtable = apply db.engine.memtable operation)
      (fun _ after => Sheltered after) := by
    refine ⟨housed2.frame rfl rfl (fun _ member => member) (le_refl _), ?_, ?_⟩
    · exact same'.options_eq.trans same.options_eq
    · exact congrArg (apply · operation) (same'.memtable_eq.trans same.memtable_eq)
  refine applies.bind ?_
  rintro _ applied ⟨housed3, options, memtable⟩
  have reads : Yields current applied (fun value mid => applied = value ∧ applied = mid)
      (fun _ after => Sheltered after) := ⟨rfl, rfl⟩
  refine reads.bind ?_
  rintro _ _ ⟨rfl, rfl⟩
  split
  · refine housed3.flush ?_
    rw [options, memtable]
    exact spaced
  · exact ⟨owner, housed3⟩

/-- Writing the output of a job is creating a table, unless the inputs cannot be read. -/
theorem Housed.writeOutput (housed : Housed owner db) {id : UInt64}
    (absent : db.disk.sst id = none) (given : id.toNat < db.engine.manifest.nextTableId.toNat)
    {snapshot : Version (byteTables sizing)} {job : CompactionJob (byteTables sizing)}
    (spaced : Spaced db.engine.options (mergedEntries db.disk.sst job
      (dropTombstones snapshot db.engine.options job))) :
    Yields (LsmStore.writeOutput snapshot job id) db
      (fun table made => table.id = id ∧ made.engine = db.engine ∧ ∃ owner', Housed owner' made ∧
        owner' id = some table.handle ∧ Filed sizing made.disk.sst id table.handle ∧
        TableHandle.Spread table.handle)
      (fun _ made => Sheltered made) := by
  unfold mergedEntries at spaced
  unfold Yields LsmStore.writeOutput
  cases opened : inputIterators db.disk.sst job.inputs with
  | error cause => exact ⟨owner, housed⟩
  | ok iterators =>
      rw [opened] at spaced
      dsimp only at spaced ⊢
      cases merged : mergeTables iterators (dropTombstones snapshot db.engine.options job) with
      | error cause => exact ⟨owner, housed⟩
      | ok entries =>
          rw [merged] at spaced
          exact housed.createTable absent given spaced

/-- **A pass, however it ends.** -/
theorem Housed.compactOnce (housed : Housed owner db) (spaced : CompactionFits Spaced db) :
    Shelters LsmStore.compactOnce db := by
  have start : Yields current db (fun value mid => db = value ∧ db = mid)
      (fun _ after => Sheltered after) := ⟨rfl, rfl⟩
  refine start.bind ?_
  rintro _ _ ⟨rfl, rfl⟩
  dsimp only
  cases picked : pickCompaction db.engine.version db.engine.options with
  | error failure => exact ⟨owner, housed⟩
  | ok choice =>
      cases choice with
      | none => exact ⟨owner, housed⟩
      | some job =>
          dsimp only
          refine housed.nextTableId.bind ?_
          rintro id mid ⟨housed', absent, given, files, options, version⟩
          have fits : Spaced mid.engine.options (mergedEntries mid.disk.sst job
              (dropTombstones db.engine.version mid.engine.options job)) := by
            rw [files, options]
            exact spaced job picked
          refine (housed'.writeOutput absent given fits).bind ?_
          rintro output made ⟨rfl, sameEngine, owner', housed'', owned, filed, spread⟩
          have records := (passes_recordCompaction output.id job made).imp
            (fun _ listed same => (⟨housed''.elsewhere same, same.sst_eq ▸ filed⟩ :
              Housed owner' listed ∧ Filed sizing listed.disk.sst output.id output.handle))
            (fun _ listed same => (⟨owner', housed''.elsewhere same⟩ : Sheltered listed))
          refine records.bind ?_
          rintro _ listed ⟨housed3, filed'⟩
          have installs : Yields (installCompaction job output) listed
              (fun _ mid => Housed owner' mid) (fun _ after => Sheltered after) := by
            unfold Yields installCompaction
            cases install : applyCompaction listed.engine.version job output with
            | error failure => exact ⟨owner', housed3⟩
            | ok version =>
                exact housed3.enter owned filed' spread fun _ => mem_of_applyCompaction install
          refine installs.bind ?_
          intro _ done housed4
          rw [Yields, removeInputs_eq (inputs_mem_of_pick picked)]
          exact ⟨owner', housed4⟩

/-- A lookup in a table of the version leaves blocks of table files in the cache. -/
theorem Housed.lookup (housed : Housed owner db) {table : SsTable (byteTables sizing)}
    (member : table ∈ db.engine.version.tablesNewestFirst) (key : Key) (reads : Nat) :
    Housed owner
      { db with
        engine :=
          { db.engine with
            sstableReads := reads
            cache := ((byteTables sizing).get table.id table.handle (db.disk.sst table.id) key
              db.engine.cache).2 } } := by
  obtain ⟨owned, filed, _⟩ := housed.live table member
  obtain ⟨after, isAfter, keeps⟩ := @TableHandle.get_keeps table.handle table.id
    (db.disk.sst table.id) db.engine.cache _ housed.cached key
    fun row isRow block read => ⟨table.handle, owned, filed, row, isRow, rfl, read⟩
  refine ⟨housed.below, housed.live, ?_⟩
  change BlockCache.Keeps _ ((TableHandle.get table.id table.handle (db.disk.sst table.id) key
    (some db.engine.cache)).2.getD db.engine.cache)
  rw [isAfter]
  exact keeps

theorem Housed.searchTables (housed : Housed owner db) (key : Key)
    {tables : List (SsTable (byteTables sizing))}
    (members : ∀ table ∈ tables, table ∈ db.engine.version.tablesNewestFirst) :
    Yields (LsmStore.searchTables key tables) db (fun _ after => Housed owner after)
      (fun _ after => Housed owner after) := by
  induction tables generalizing db with
  | nil => exact housed
  | cons table rest ih =>
      have later : ∀ other ∈ rest, other ∈ db.engine.version.tablesNewestFirst :=
        fun other member => members other (List.mem_cons_of_mem _ member)
      have read := housed.lookup (members table List.mem_cons_self) key
        (db.engine.sstableReads + 1)
      unfold Yields LsmStore.searchTables
      split_ifs
      · exact ih housed later
      · exact ih (housed.frame rfl rfl (fun _ member => member) (le_refl _)) later
      · dsimp only
        cases ((byteTables sizing).get table.id table.handle (db.disk.sst table.id) key
            db.engine.cache).1 with
        | error cause => exact read
        | ok found =>
            cases found with
            | none => exact ih read later
            | some entry => cases entry <;> exact read

/-- A read, whatever it returns. -/
theorem Housed.get (housed : Housed owner db) (key : Key) :
    Yields (LsmStore.get key) db (fun _ after => Housed owner after)
      (fun _ after => Housed owner after) := by
  unfold Yields LsmStore.get
  cases validateKey key with
  | error cause => exact housed
  | ok _ =>
      cases db.engine.memtable.get key with
      | some entry => cases entry <;> exact housed
      | none =>
          cases db.engine.immutable.bind (·.get key) with
          | some entry => cases entry <;> exact housed
          | none => exact housed.searchTables key fun _ member => member

end Actions

/-! ## Runs -/

section Runs

variable {db : Db (byteTables sizing)}

theorem Sheltered.frame {db' : Db (byteTables sizing)} (sheltered : Sheltered db)
    (sst : db'.disk.sst = db.disk.sst) (cache : db'.engine.cache = db.engine.cache)
    (version : db'.engine.version = db.engine.version)
    (manifest : db'.engine.manifest = db.engine.manifest) : Sheltered db' := by
  obtain ⟨owner, housed⟩ := sheltered
  exact ⟨owner, housed.frame sst cache (fun _ member => version ▸ member) (by rw [manifest])⟩

theorem Sheltered.workerPass (sheltered : Sheltered db)
    (spaced : db.engine.inbox ≠ 0 → db.engine.running = true → CompactionFits Spaced db) :
    Shelters LsmStore.workerPass db := by
  unfold Shelters Yields LsmStore.workerPass
  split_ifs with idle
  · exact sheltered
  · obtain ⟨pending, alive⟩ := not_or.mp idle
    have fits := spaced pending (by simpa using alive)
    obtain ⟨owner, housed⟩ : Sheltered
        { db with engine := { db.engine with inbox := db.engine.inbox - 1 } } :=
      sheltered.frame rfl rfl rfl rfl
    have passes := housed.compactOnce fits
    dsimp only
    cases ended : LsmStore.compactOnce
        { db with engine := { db.engine with inbox := db.engine.inbox - 1 } } with
    | ok value after => exact passes.ok ended
    | error failure after =>
        have sheltered' := passes.error ended
        cases failure <;> exact sheltered'.frame rfl rfl rfl rfl

/-- **One command**, with any failures of its file operations. -/
theorem Sheltered.attempt (sheltered : Sheltered db) {command : Command} {plan : List Verdict}
    {after : Db (byteTables sizing)} (ordinary : command ≠ .reopen)
    (spaced : Admitted Spaced command db)
    (attempted : LsmStore.attempt command plan db = .ok after) : Sheltered after := by
  have shelters : Shelters command.action (db.planned plan) := by
    obtain ⟨owner, housed⟩ := sheltered
    have housed' := housed.planned plan
    cases command with
    | put key value =>
        rcases @put_cases (byteTables sizing) key value with
          ⟨_, cause, refused⟩ | ⟨_, _, _, isWrite⟩
        · rw [Shelters, Yields, Command.action, refused]
          exact ⟨owner, housed'⟩
        · rw [Shelters, Yields, Command.action, isWrite]
          exact housed'.write spaced
    | delete key =>
        rcases @delete_cases (byteTables sizing) key with
          ⟨_, cause, refused⟩ | ⟨_, _, _, isWrite⟩
        · rw [Shelters, Yields, Command.action, refused]
          exact ⟨owner, housed'⟩
        · rw [Shelters, Yields, Command.action, isWrite]
          exact housed'.write spaced
    | get key =>
        have reads := housed'.get key
        change Yields (EStateM.map (Function.const _ ()) (LsmStore.get key)) _ _ _
        unfold Yields EStateM.map
        cases ran : LsmStore.get key (db.planned plan) with
        | ok value after => exact ⟨owner, reads.ok ran⟩
        | error failure after => exact ⟨owner, reads.error ran⟩
    | flush => exact housed'.flush spaced
    | compact => exact housed'.compactOnce spaced
    | workerPass => exact Sheltered.workerPass ⟨owner, housed'⟩ spaced.1
    | reopen => exact absurd rfl ordinary
  unfold LsmStore.attempt execute at attempted
  cases ran : command.action (db.planned plan) with
  | ok value next =>
      rw [ran] at attempted
      cases attempted
      exact (shelters.ok ran).frame rfl rfl rfl rfl
  | error failure next =>
      have sheltered' := shelters.error ran
      rw [ran] at attempted
      cases failure with
      | panic => cases attempted
      | error cause =>
          dsimp only at attempted
          rw [if_neg ordinary] at attempted
          cases attempted
          exact sheltered'.frame rfl rfl rfl rfl

theorem Sheltered.attemptAll {attempts : List (Command × List Verdict)}
    {final : Db (byteTables sizing)} (sheltered : Sheltered db)
    (ordinary : ∀ pair ∈ attempts, pair.1 ≠ .reopen)
    (spaced : AllAttempts (fun command _ state => Admitted Spaced command state) attempts db)
    (ran : LsmStore.attemptAll attempts db = .ok final) : Sheltered final := by
  induction attempts generalizing db with
  | nil =>
      cases ran
      exact sheltered
  | cons pair rest ih =>
      obtain ⟨command, plan⟩ := pair
      rw [LsmStore.attemptAll] at ran
      cases attempted : LsmStore.attempt command plan db with
      | error failure =>
          rw [attempted] at ran
          cases ran
      | ok after =>
          rw [attempted] at ran
          have sheltered' := sheltered.attempt (ordinary _ List.mem_cons_self) spaced.1 attempted
          exact ih sheltered' (fun other member => ordinary other (List.mem_cons_of_mem _ member))
            (spaced.2 after attempted) ran

end Runs

/-! ## Opening -/

/-- An engine that has just been opened is sheltered. -/
theorem sheltered_of_open {options : Options} {disk : Disk (byteTables sizing)}
    {engine : Engine (byteTables sizing)} (opened : openWith options disk = .ok engine)
    (below : ∀ id, disk.sst id ≠ none → id.toNat < engine.manifest.nextTableId.toNat)
    (spread : ∀ table ∈ engine.version.tablesNewestFirst, TableHandle.Spread table.handle) :
    Sheltered ⟨disk, engine, []⟩ := by
  have empty : engine.cache = BlockCache.new options.cacheSizeBytes := (openWith_cases opened).1
  refine ⟨fun id => (disk.sst id).bind fun file => (TableHandle.openFile file).toOption, below,
    fun table member => ?_, ?_⟩
  · obtain ⟨file, isFile, isHandle⟩ := mem_of_openWith opened member
    refine ⟨?_, ⟨file, isFile, .inr isHandle⟩, spread table member⟩
    have isOpen : TableHandle.openFile file = .ok table.handle := isHandle
    rw [isFile, Option.bind_some, isOpen]
    rfl
  · dsimp only
    rw [empty]
    exact BlockCache.keeps_new _ _

/-- **The block cache is transparent.**  A process opens a directory in which every
table file has an id below the next one and every table has its rows at different
offsets, and runs commands of which any file operation may fail.  Then every resident
block is what the file of its table holds at its offset, and a lookup in a table of
the version returns through the cache what it returns without it.  Asked of the run
is that no table it writes has a data block whose length is a multiple of `2 ^ 32`. -/
theorem cache_transparent (sizing : BloomSizing) {options : Options}
    {disk : Disk (byteTables sizing)} {engine : Engine (byteTables sizing)}
    {attempts : List (Command × List Verdict)} {final : Db (byteTables sizing)}
    (opened : openWith options disk = .ok engine)
    (below : ∀ id, disk.sst id ≠ none → id.toNat < engine.manifest.nextTableId.toNat)
    (spread : ∀ table ∈ engine.version.tablesNewestFirst, TableHandle.Spread table.handle)
    (oneProcess : ∀ pair ∈ attempts, pair.1 ≠ .reopen)
    (spaced : AllAttempts (fun command _ state => Admitted Spaced command state) attempts
      ⟨disk, engine, []⟩)
    (ran : attemptAll attempts ⟨disk, engine, []⟩ = .ok final) :
    (∀ key block, (BlockCache.map final.engine.cache).lookup key = some block →
      ∃ file handle row, final.disk.sst key.tableId = some file ∧ HandleOf sizing file handle ∧
        row ∈ handle.index ∧ row.offset = key.offset ∧ readBlock (some file) row = .ok block) ∧
    ∀ table ∈ final.engine.version.tablesNewestFirst, ∀ key,
      (TableHandle.get table.id table.handle (final.disk.sst table.id) key
        (some final.engine.cache)).1 =
      (TableHandle.get table.id table.handle (final.disk.sst table.id) key none).1 := by
  obtain ⟨owner, housed⟩ :=
    (sheltered_of_open opened below spread).attemptAll oneProcess spaced ran
  refine ⟨fun key block resident => ?_, fun table member key => ?_⟩
  · obtain ⟨handle, _, ⟨file, isFile, isHandle⟩, row, isRow, same, read⟩ :=
      housed.cached key block resident
    exact ⟨file, handle, row, isFile, isHandle, isRow, same, isFile ▸ read⟩
  · obtain ⟨owned, _, spread⟩ := housed.live table member
    refine TableHandle.get_transparent key fun row isRow block resident => ?_
    obtain ⟨handle, owned', _, other, isOther, same, read⟩ := housed.cached _ _ resident
    obtain rfl : table.handle = handle := Option.some.inj (owned.symm.trans owned')
    obtain rfl : other = row := List.inj_on_of_nodup_map spread isOther isRow same
    exact read

end Housing

/-- Whether a run ends with the first block of table 1 in its cache. -/
def firstResident (ended : Except Failure (Db (byteTables smallSizing))) : Bool :=
  match ended with
  | .ok db => ((BlockCache.map db.engine.cache).lookup ⟨1, 0⟩).isSome
  | .error _ => false

/-- A value is stored, flushed and read, so that its block is resident. -/
theorem cache_transparent_after_read :
    ∃ engine final, openWith tinyOptions (Disk.empty (byteTables smallSizing)) = .ok engine ∧
      attemptAll [(.put [97] [49], []), (.flush, []), (.get [97], [])]
        ⟨Disk.empty (byteTables smallSizing), engine, []⟩ = .ok final ∧
      ((BlockCache.map final.engine.cache).lookup ⟨1, 0⟩).isSome ∧
      ∀ table ∈ final.engine.version.tablesNewestFirst,
        (TableHandle.get table.id table.handle (final.disk.sst table.id) [97]
          (some final.engine.cache)).1 =
        (TableHandle.get table.id table.handle (final.disk.sst table.id) [97] none).1 := by
  have resident : firstResident (attemptAll [(.put [97] [49], []), (.flush, []), (.get [97], [])]
      (Db.new (byteTables smallSizing) tinyOptions)) = true := by
    decide +kernel
  have single : Spaced tinyOptions [([97], .value [49])] := by
    unfold Spaced
    decide +kernel
  cases ran : attemptAll [(.put [97] [49], []), (.flush, []), (.get [97], [])]
      (Db.new (byteTables smallSizing) tinyOptions) with
  | error failure =>
      rw [ran] at resident
      cases resident
  | ok final =>
      rw [ran] at resident
      refine ⟨(Db.new (byteTables smallSizing) tinyOptions).engine, final, rfl, ran, resident, ?_⟩
      refine fun table member => (cache_transparent smallSizing
        (show openWith tinyOptions (Disk.empty (byteTables smallSizing)) =
          .ok (Db.new (byteTables smallSizing) tinyOptions).engine from rfl)
        (fun id exists_ => absurd rfl exists_) ?_ (by decide) ?_ ran).2 table member [97]
      · intro table member
        rw [tables_new] at member
        cases member
      · refine ⟨single, fun after put => ⟨?_, fun after flushed => ⟨trivial, fun _ _ => trivial⟩⟩⟩
        obtain rfl := Except.ok.inj put
        exact single

/-! ## A table with two rows at one offset

The first data block of the table is `2 ^ 32 + 14` bytes long and is recorded with
length 14, which is where its first value begins; the second is `2 ^ 32` bytes long
and is recorded with length 0.  The rows of the second and the third block both get
the offset 14.  There the first value holds the image of the third block. -/

section Colliding

/-- Pairs of keys and values as entries. -/
def valueEntries (pairs : List (Key × Bytes)) : List (Key × Entry) :=
  pairs.map fun pair => (pair.1, .value pair.2)

theorem valueEntries_append (front back : List (Key × Bytes)) :
    valueEntries (front ++ back) = valueEntries front ++ valueEntries back := List.map_append

/-- The bytes that the entries of some pairs take. -/
theorem length_encoded_cons (key value : Bytes) (rest : List (Key × Bytes)) :
    (encodeEntries (valueEntries ((key, value) :: rest))).length =
      9 + key.length + value.length + (encodeEntries (valueEntries rest)).length := by
  change (encodeEntry key (.value value) ++ encodeEntries (valueEntries rest)).length = _
  rw [List.length_append, length_encodeEntry]
  rfl

theorem length_encoded_append (front back : List (Key × Bytes)) :
    (encodeEntries (valueEntries (front ++ back))).length =
      (encodeEntries (valueEntries front)).length + (encodeEntries (valueEntries back)).length := by
  rw [valueEntries_append, encodeEntries_append, List.length_append]

/-- Zero bytes. -/
@[irreducible] def zeros (count : Nat) : Bytes := List.replicate count 0

theorem length_zeros (count : Nat) : (zeros count).length = count := by
  rw [zeros, List.length_replicate]

/-- Pairs of which each takes `2 ^ 26` bytes. -/
def fillers (first count : Nat) : List (Key × Bytes) :=
  (List.range' first count).map fun number => ([UInt8.ofNat number], zeros 67108854)

theorem length_encoded_fillers (first count : Nat) :
    (encodeEntries (valueEntries (fillers first count))).length = count * 67108864 := by
  induction count generalizing first with
  | zero => rfl
  | succ count ih =>
      have split : fillers first (count + 1) =
          ([UInt8.ofNat first], zeros 67108854) :: fillers (first + 1) count := by
        rw [fillers, List.range'_succ, List.map_cons, fillers]
      have cons := length_encoded_cons [UInt8.ofNat first] (zeros 67108854)
        (fillers (first + 1) count)
      have rest := ih (first + 1)
      have zero := length_zeros 67108854
      have one : [UInt8.ofNat first].length = 1 := List.length_singleton
      rw [split]
      omega

/-- The block of the last entry, as it is written. -/
def lastImage : Bytes := blockBytes [([129], .value [49])]

theorem length_lastImage : lastImage.length = 19 := by
  rw [lastImage, length_blockBytes]
  rfl

/-- A value that begins with the image of another block. -/
@[irreducible] def hidingValue : Bytes := lastImage ++ zeros 67108835

theorem length_hidingValue : hidingValue.length = 67108854 := by
  have both : hidingValue.length = lastImage.length + (zeros 67108835).length := by
    rw [hidingValue, List.length_append]
  have image := length_lastImage
  have zero := length_zeros 67108835
  omega

/-- All but the last pair of the first block. -/
def firstPairs : List (Key × Bytes) := ([1], hidingValue) :: fillers 2 62

/-- The pair that closes the first block. -/
def firstClosing : Key × Bytes := ([64], zeros 67108860)

/-- The pair that closes the second block. -/
def secondClosing : Key × Bytes := ([128], zeros 67108846)

theorem length_first : (encodeEntries (valueEntries firstPairs)).length = 4227858432 := by
  have cons := length_encoded_cons [1] hidingValue (fillers 2 62)
  have rest := length_encoded_fillers 2 62
  have value := length_hidingValue
  have one : ([1] : Bytes).length = 1 := List.length_singleton
  rw [firstPairs]
  omega

theorem length_closing (key : UInt8) (count : Nat) :
    (encodeEntries (valueEntries [([key], zeros count)])).length = 10 + count := by
  have cons := length_encoded_cons [key] (zeros count) []
  have zero := length_zeros count
  have one : [key].length = 1 := List.length_singleton
  have none : (encodeEntries (valueEntries [])).length = 0 := rfl
  omega

theorem length_firstBlock :
    (encodeEntries (valueEntries (firstPairs ++ [firstClosing]))).length = 4294967302 := by
  have both := length_encoded_append firstPairs [firstClosing]
  have front := length_first
  have closing : (encodeEntries (valueEntries [firstClosing])).length = 10 + 67108860 :=
    length_closing 64 67108860
  omega

theorem length_secondBlock :
    (encodeEntries (valueEntries (fillers 65 63 ++ [secondClosing]))).length = 4294967288 := by
  have both := length_encoded_append (fillers 65 63) [secondClosing]
  have front := length_encoded_fillers 65 63
  have closing : (encodeEntries (valueEntries [secondClosing])).length = 10 + 67108846 :=
    length_closing 128 67108846
  omega

/-- All pairs of the colliding table. -/
def collidingPairs : List (Key × Bytes) :=
  firstPairs ++ firstClosing :: (fillers 65 63 ++ secondClosing :: [([129], [49])])

/-- The three blocks of the colliding table. -/
def collidingBlocks : List BlockData :=
  [valueEntries (firstPairs ++ [firstClosing]), valueEntries (fillers 65 63 ++ [secondClosing]),
    valueEntries [([129], [49])]]

theorem valueEntries_cons (pair : Key × Bytes) (rest : List (Key × Bytes)) :
    valueEntries (pair :: rest) = (pair.1, .value pair.2) :: valueEntries rest := rfl

theorem cutBlocks_colliding :
    cutBlocks 4294967288 (valueEntries collidingPairs) = collidingBlocks := by
  have isEntries : valueEntries collidingPairs = valueEntries firstPairs ++
      (firstClosing.1, .value firstClosing.2) :: (valueEntries (fillers 65 63) ++
        (secondClosing.1, .value secondClosing.2) :: valueEntries [([129], [49])]) := by
    simp only [collidingPairs, valueEntries_append, valueEntries_cons]
  have one : valueEntries firstPairs ++ [(firstClosing.1, .value firstClosing.2)] =
      valueEntries (firstPairs ++ [firstClosing]) := by
    rw [valueEntries_append]
    rfl
  have two : valueEntries (fillers 65 63) ++ [(secondClosing.1, .value secondClosing.2)] =
      valueEntries (fillers 65 63 ++ [secondClosing]) := by
    rw [valueEntries_append]
    rfl
  have first := length_first
  have firstFull := length_firstBlock
  have second := length_encoded_fillers 65 63
  have secondFull := length_secondBlock
  have last : cutFrom 4294967288 [] (valueEntries [([129], [49])]) =
      ([], valueEntries [([129], [49])]) := by
    have short : (encodeEntries (valueEntries [([129], [49])])).length = 11 := by decide
    rw [valueEntries_cons, cutFrom, if_neg]
    · rfl
    · intro impossible
      change 4294967288 ≤ (encodeEntries (valueEntries [([129], [49])])).length at impossible
      omega
  have cut : cutFrom 4294967288 [] (valueEntries collidingPairs) =
      ([valueEntries (firstPairs ++ [firstClosing]), valueEntries (fillers 65 63 ++ [secondClosing])],
        valueEntries [([129], [49])]) := by
    rw [isEntries, cutFrom_full, cutFrom_full, last]
    · rw [List.nil_append, List.nil_append, one, two]
    · rw [List.nil_append]
      omega
    · rw [List.nil_append, two]
      omega
    · rw [List.nil_append]
      omega
    · rw [List.nil_append, one]
      omega
  rw [cutBlocks, cut, closeLast, if_pos (.inl (by simp [valueEntries]))]
  rfl

theorem keys_colliding :
    collidingPairs.map Prod.fst = (List.range' 1 129).map fun number => [UInt8.ofNat number] := by
  rfl

theorem valid_colliding : ValidRun (valueEntries collidingPairs) := by
  have keys : (valueEntries collidingPairs).map Prod.fst =
      (List.range' 1 129).map fun number => [UInt8.ofNat number] := by
    rw [← keys_colliding, valueEntries, List.map_map]
    rfl
  have sorted : ((List.range' 1 129).map fun number => [UInt8.ofNat number]).Pairwise
      (fun first second : Key => first < second) := by
    refine List.pairwise_map.mpr (List.Pairwise.imp_of_mem ?_ List.pairwise_lt_range')
    intro first second _ inRange less
    have small : second < 256 := by
      have below := (List.mem_range'_1.mp inRange).2
      omega
    refine List.cons_lt_cons_iff.mpr (.inl (UInt8.lt_iff_toNat_lt.mpr ?_))
    rwa [UInt8.toNat_ofNat_of_lt' (less.trans small), UInt8.toNat_ofNat_of_lt' small]
  have filled : ∀ key ∈ (List.range' 1 129).map fun number => [UInt8.ofNat number],
      key ≠ [] := by
    intro key member
    obtain ⟨number, _, rfl⟩ := List.mem_map.mp member
    exact List.cons_ne_nil _ _
  rw [← keys] at sorted filled
  exact ⟨List.pairwise_map.mp sorted, fun pair member =>
    filled pair.1 (List.mem_map_of_mem member)⟩

/-- The lengths of the blocks, cut to 32 bits. -/
theorem lengths_colliding :
    UInt32.ofNat (blockBytes (valueEntries (firstPairs ++ [firstClosing]))).length = 14 ∧
      UInt32.ofNat (blockBytes (valueEntries (fillers 65 63 ++ [secondClosing]))).length = 0 ∧
      UInt32.ofNat (blockBytes (valueEntries [([129], [49])])).length = 19 := by
  refine ⟨?_, ?_, ?_⟩
  · rw [length_blockBytes, length_firstBlock]
    rfl
  · rw [length_blockBytes, length_secondBlock]
    rfl
  · rw [length_blockBytes]
    rfl

theorem countedLength_colliding : countedLength collidingBlocks = 33 := by
  obtain ⟨one, two, three⟩ := lengths_colliding
  simp only [countedLength, collidingBlocks, List.map_cons, List.map_nil, one, two, three]
  rfl

theorem rows_colliding :
    rowsFrom 0 collidingBlocks =
      [⟨[1], [64], 0, 14⟩, ⟨[65], [128], 14, 0⟩, ⟨[129], [129], 14, 19⟩] := by
  obtain ⟨one, two, three⟩ := lengths_colliding
  have firstLast : lastKey (valueEntries (firstPairs ++ [firstClosing])) = [64] := by
    rw [valueEntries_append]
    exact lastKey_append (List.cons_ne_nil _ _) _
  have secondLast : lastKey (valueEntries (fillers 65 63 ++ [secondClosing])) = [128] := by
    rw [valueEntries_append]
    exact lastKey_append (List.cons_ne_nil _ _) _
  simp only [collidingBlocks, rowsFrom, one, two, three, firstLast, secondLast]
  rfl

/-- The image of the last block lies at offset 14 of the file. -/
theorem image_at_fourteen :
    ∃ front back, front.length = 14 ∧
      collidingBlocks.flatMap blockBytes = front ++ lastImage ++ back := by
  obtain ⟨rest, isRest⟩ : ∃ rest, blockBytes (valueEntries (firstPairs ++ [firstClosing])) =
      u32ToLeBytes (UInt32.ofNat (valueEntries (firstPairs ++ [firstClosing])).length) ++
        (typeValue :: (lenToLeBytes 1 ++ lenToLeBytes hidingValue.length ++ [1] ++ hidingValue)) ++
          rest := by
    refine ⟨encodeEntries (valueEntries (fillers 2 62 ++ [firstClosing])) ++ u32ToLeBytes (crc32
      (u32ToLeBytes (UInt32.ofNat (valueEntries (firstPairs ++ [firstClosing])).length) ++
        encodeEntries (valueEntries (firstPairs ++ [firstClosing])))), ?_⟩
    have split : encodeEntries (valueEntries (firstPairs ++ [firstClosing])) =
        encodeEntry [1] (.value hidingValue) ++
          encodeEntries (valueEntries (fillers 2 62 ++ [firstClosing])) := rfl
    rw [blockBytes, flushDataBlock, split, encodeEntry]
    simp only [List.append_assoc, List.cons_append, List.length_singleton]
  refine ⟨u32ToLeBytes (UInt32.ofNat (valueEntries (firstPairs ++ [firstClosing])).length) ++
    (typeValue :: (lenToLeBytes 1 ++ lenToLeBytes hidingValue.length ++ [1])),
    zeros 67108835 ++ rest ++ blockBytes (valueEntries (fillers 65 63 ++ [secondClosing])) ++
      blockBytes (valueEntries [([129], [49])]), ?_, ?_⟩
  · simp [length_u32ToLeBytes, length_lenToLeBytes]
  · rw [collidingBlocks, List.flatMap_cons, List.flatMap_cons, List.flatMap_cons, List.flatMap_nil,
      isRest]
    have isValue : hidingValue = lastImage ++ zeros 67108835 := by rw [hidingValue]
    generalize lenToLeBytes hidingValue.length = field
    rw [isValue]
    simp only [List.append_assoc, List.cons_append, List.append_nil, List.nil_append]

/-- The table of the colliding pairs is created, with two rows at offset 14. -/
theorem create_colliding (bloomFp : Float) :
    ∃ file handle,
      TableHandle.create smallSizing (valueEntries collidingPairs) bloomFp 4294967288 =
        .ok (file, handle) ∧
      handle.index = [⟨[1], [64], 0, 14⟩, ⟨[65], [128], 14, 0⟩, ⟨[129], [129], 14, 19⟩] ∧
      TableRows handle collidingBlocks ∧
      ∃ front back, front.length = 14 ∧ file = front ++ lastImage ++ back := by
  have few : ∀ block ∈ collidingBlocks, block.length ≤ u32Max := by
    intro block member
    have short : block.length ≤ 64 := by
      simp only [collidingBlocks, List.mem_cons, List.not_mem_nil, or_false] at member
      rcases member with rfl | rfl | rfl <;>
        simp [valueEntries, firstPairs, fillers]
    exact le_trans short (by decide)
  have near : countedLength collidingBlocks + (encodeIndex (rowsFrom 0 collidingBlocks)).length ≤
      u64Max := by
    rw [countedLength_colliding, rows_colliding]
    decide +kernel
  rw [← cutBlocks_colliding] at few near
  obtain ⟨file, handle, created⟩ := @exists_create smallSizing _ bloomFp _ valid_colliding few near
  obtain ⟨index, rows, ⟨back, isFile⟩, _, _⟩ := create_of_ok valid_colliding created
  rw [cutBlocks_colliding] at index rows isFile
  rw [rows_colliding] at index
  obtain ⟨front, more, length, image⟩ := image_at_fourteen
  exact ⟨file, handle, created, index, rows, front, more ++ back, length,
    by rw [isFile, image, List.append_assoc]⟩

/-- The third row finds the image, the second one nothing. -/
theorem read_colliding {file front back : Bytes} (length : front.length = 14)
    (isFile : file = front ++ lastImage ++ back) :
    readBlock (some file) ⟨[129], [129], 14, 19⟩ = .ok [([129], .value [49])] ∧
      readBlock (some file) ⟨[65], [128], 14, 0⟩ = .error .corruptedRecord := by
  constructor
  · have read := readDataBlock_blockBytes (show (blockBytes [([129], .value [49])]).length < 2 ^ 32
      by rw [length_blockBytes]; decide) (show front.length < 2 ^ 64 by omega) back
    rw [length] at read
    rw [isFile]
    exact read
  · change readDataBlock file 14 0 = _
    simp [readDataBlock]

theorem mem_keys_colliding (number : Nat) (inside : 1 ≤ number ∧ number < 130) :
    [UInt8.ofNat number] ∈ (List.range' 1 129).map fun number => [UInt8.ofNat number] :=
  List.mem_map_of_mem (List.mem_range'_1.mpr inside)

/-- The keys of the table lie in its range, and its filter knows them. -/
theorem TableRows.not_skipped_colliding {handle : TableHandle}
    (rows : TableRows handle collidingBlocks) {key : Key}
    (member : key ∈ (List.range' 1 129).map fun number => [UInt8.ofNat number]) :
    handle.containsRange key = true ∧ handle.bloom.mightContain key = true := by
  rw [← keys_colliding] at member
  obtain ⟨pair, inPairs, rfl⟩ := List.mem_map.mp member
  refine rows.not_skipped ?_
  rw [← cutBlocks_colliding, flatten_cutBlocks]
  have inEntries : (pair.1, Entry.value pair.2) ∈ valueEntries collidingPairs :=
    List.mem_map_of_mem inPairs
  rw [valid_colliding.sorted.valueAt_of_mem inEntries]
  exact nofun

/-- The index of the colliding table. -/
def collidingIndex : List IndexEntry :=
  [⟨[1], [64], 0, 14⟩, ⟨[65], [128], 14, 0⟩, ⟨[129], [129], 14, 19⟩]

def secondRow : Fin collidingIndex.length := ⟨1, by decide⟩

def thirdRow : Fin collidingIndex.length := ⟨2, by decide⟩

/-- A cache that has loaded the image for the third row. -/
def imageCache : BlockCache :=
  { BlockCache.new 64 with misses := 1 }.insert ⟨1, 14⟩ [([129], .value [49])]

/-- Through the cache, a lookup of the last key makes a lookup of another key succeed
that fails without it. -/
theorem lookups_colliding {file front back : Bytes} {handle : TableHandle}
    (isIndex : handle.index = collidingIndex)
    (rows : TableRows handle collidingBlocks) (length : front.length = 14)
    (isFile : file = front ++ lastImage ++ back) :
    handle.get 1 (some file) [129] (some (BlockCache.new 64)) =
        (.ok (some (.value [49])), some imageCache) ∧
      (handle.get 1 (some file) [65] (some imageCache)).1 = .ok none ∧
      (handle.get 1 (some file) [65] none).1 = .error .corruptedRecord := by
  obtain ⟨image, nothing⟩ := read_colliding length isFile
  obtain ⟨lastInside, lastKnown⟩ := rows.not_skipped_colliding (show [129] ∈ _ from mem_keys_colliding 129 (by decide))
  obtain ⟨otherInside, otherKnown⟩ := rows.not_skipped_colliding (show [65] ∈ _ from mem_keys_colliding 65 (by decide))
  obtain ⟨index, bloom, smallest, largest, size⟩ := handle
  dsimp only at isIndex
  subst isIndex
  have third : TableHandle.blockForKey ⟨collidingIndex, bloom, smallest, largest, size⟩ [129] =
      some thirdRow := by
    change binarySearchBy (IndexEntry.compareKey [129]) collidingIndex = some thirdRow
    decide
  have second : TableHandle.blockForKey ⟨collidingIndex, bloom, smallest, largest, size⟩ [65] =
      some secondRow := by
    change binarySearchBy (IndexEntry.compareKey [65]) collidingIndex = some secondRow
    decide
  have misses : TableHandle.loadBlock 1 ⟨collidingIndex, bloom, smallest, largest, size⟩ (some file)
      thirdRow (some (BlockCache.new 64)) =
        (.ok [([129], .value [49])], some imageCache) := by
    have absent : (BlockCache.new 64).get ⟨1, 14⟩ =
        (none, { BlockCache.new 64 with misses := 1 }) := rfl
    have isEntry : collidingIndex.get thirdRow = ⟨[129], [129], 14, 19⟩ := rfl
    unfold TableHandle.loadBlock
    dsimp only
    rw [isEntry, absent]
    dsimp only
    rw [image]
    rfl
  have hits : (TableHandle.loadBlock 1 ⟨collidingIndex, bloom, smallest, largest, size⟩ (some file)
      secondRow (some imageCache)).1 = .ok [([129], .value [49])] := by
    have found : imageCache.map.lookup ⟨1, 14⟩ = some [([129], .value [49])] := by decide
    have isEntry : collidingIndex.get secondRow = ⟨[65], [128], 14, 0⟩ := rfl
    unfold TableHandle.loadBlock
    dsimp only
    rw [isEntry, BlockCache.get, found]
  have fails : (TableHandle.loadBlock 1 ⟨collidingIndex, bloom, smallest, largest, size⟩ (some file)
      secondRow none).1 = .error .corruptedRecord := nothing
  unfold TableHandle.get
  rw [lastInside, lastKnown, otherInside, otherKnown, third, second]
  simp only [Bool.not_true, Bool.false_eq_true, if_false]
  refine ⟨?_, ?_, ?_⟩
  · rw [misses]
    simp only [show searchBlock [([129], .value [49])] [129] = some (.value [49]) by decide]
  · rcases loaded : TableHandle.loadBlock 1 ⟨collidingIndex, bloom, smallest, largest, size⟩
      (some file) secondRow (some imageCache) with ⟨found, after⟩
    rw [loaded] at hits
    cases hits
    exact congrArg Except.ok (show searchBlock [([129], .value [49])] [65] = none by decide)
  · rcases loaded : TableHandle.loadBlock 1 ⟨collidingIndex, bloom, smallest, largest, size⟩
      (some file) secondRow none with ⟨found, after⟩
    rw [loaded] at fails
    cases fails
    rfl

theorem iter_inserted {pairs : List (Key × Bytes)} (sorted : KeySorted (valueEntries pairs)) :
    (pairs.foldl (fun table pair => table.insert pair.1 (.value pair.2)) MemTable.new).iter =
      valueEntries pairs := by
  refine KeySorted.ext (MemTable.iter_sorted _) sorted fun key => ?_
  have folded : pairs.foldl (fun table pair => table.insert pair.1 (.value pair.2)) MemTable.new =
      (valueEntries pairs).foldl (fun table pair => table.insert pair.1 pair.2) MemTable.new := by
    rw [valueEntries, List.foldl_map]
  rw [MemTable.valueAt_iter, folded, MemTable.get_foldl_insert sorted, MemTable.get_new,
    Option.or_none]

/-- Options with data blocks of up to `2 ^ 32` bytes. -/
def collidingOptions : Options where
  memtableSizeBytes := 1099511627776
  l0CompactionTrigger := 4
  levelSizeMultiplier := 2
  maxLevels := 2
  bloomFalsePositiveRate := 0.01
  blockSize := 4294967288
  cacheSizeBytes := 64

/-- The pairs are stored and flushed, and the last key is read. -/
def collidingRun : List (Command × List Verdict) :=
  putAll collidingPairs ++ [(.flush, []), (.get [129], [])]

theorem sizes_colliding : ∀ pair ∈ collidingPairs,
    pair.1.length = 1 ∧ pair.2.length ≤ 67108860 := by
  have fill : ∀ {first count : Nat}, ∀ pair ∈ fillers first count,
      pair.1.length = 1 ∧ pair.2.length ≤ 67108860 := by
    intro first count pair member
    obtain ⟨number, _, rfl⟩ := List.mem_map.mp member
    exact ⟨rfl, le_trans (le_of_eq (length_zeros 67108854)) (by omega)⟩
  intro pair member
  simp only [collidingPairs, firstPairs, List.mem_append, List.mem_cons, List.not_mem_nil,
    or_false] at member
  rcases member with (rfl | filler) | rfl | filler | rfl | rfl
  · exact ⟨rfl, le_trans (le_of_eq length_hidingValue) (by omega)⟩
  · exact fill pair filler
  · exact ⟨rfl, le_of_eq (length_zeros 67108860)⟩
  · exact fill pair filler
  · exact ⟨rfl, le_trans (le_of_eq (length_zeros 67108846)) (by omega)⟩
  · exact ⟨rfl, by decide⟩

theorem valid_puts_colliding : ∀ pair ∈ collidingPairs,
    validateKey pair.1 = .ok () ∧ validateValue pair.2 = .ok () := by
  intro pair member
  obtain ⟨one, short⟩ := sizes_colliding pair member
  have keyMax : maxKeySize = 65536 := rfl
  have valueMax : maxValueSize = 67108864 := rfl
  refine ⟨validateKey_eq_ok_iff.mpr ⟨?_, by omega⟩, validateValue_eq_ok_iff.mpr (by omega)⟩
  intro empty
  rw [empty] at one
  cases one

theorem total_colliding :
    (collidingPairs.map fun pair => pair.1.length + pair.2.length).sum ≤ 129 * 67108861 := by
  have count : collidingPairs.length = 129 := by
    have keys := congrArg List.length keys_colliding
    simpa using keys
  have bound := List.sum_le_card_nsmul
    (collidingPairs.map fun pair => pair.1.length + pair.2.length) 67108861 (by
      intro size member
      obtain ⟨pair, inPairs, rfl⟩ := List.mem_map.mp member
      obtain ⟨one, short⟩ := sizes_colliding pair inPairs
      omega)
  rwa [List.length_map, count, smul_eq_mul] at bound

/-- The database with a memtable of the colliding pairs. -/
def collidingFilled (wal : Bytes) (memtable : MemTable) : Db (byteTables smallSizing) where
  disk := { Disk.empty (byteTables smallSizing) with wal := wal }
  engine := { (Db.new (byteTables smallSizing) collidingOptions).engine with memtable := memtable }
  faults := []

/-- The flush writes the colliding table as table 1. -/
theorem flush_colliding {wal file : Bytes} {memtable : MemTable} {handle : TableHandle}
    (iter : memtable.iter = valueEntries collidingPairs)
    (created : TableHandle.create smallSizing (valueEntries collidingPairs)
      collidingOptions.bloomFalsePositiveRate 4294967288 = .ok (file, handle)) :
    attempt .flush [] (collidingFilled wal memtable) =
      .ok ((collidingFilled wal memtable).flushed file ⟨[[⟨1, handle⟩], []]⟩) := by
  have nonempty : memtable.isEmpty = false := by
    rw [MemTable.isEmpty]
    change memtable.iter.isEmpty = false
    rw [iter]
    rfl
  have flushes := @flushMemtable_noFaults (byteTables smallSizing)
    (collidingFilled wal memtable).disk (collidingFilled wal memtable).engine file handle
    ⟨[[⟨1, handle⟩], []]⟩ nonempty (show (1 : UInt64).toNat + 1 ≤ u64Max by decide)
    (show TableHandle.create smallSizing memtable.iter _ _ = _ by rw [iter]; exact created) rfl rfl
  have done : flush (collidingFilled wal memtable) =
      .ok () ((collidingFilled wal memtable).flushed file ⟨[[⟨1, handle⟩], []]⟩) :=
    bind_eq_ok.mpr ⟨(), _, flushes, rfl⟩
  rw [attempt, show (collidingFilled wal memtable).planned [] = collidingFilled wal memtable from rfl,
    execute_of_ok (show Command.flush.action _ = _ from done)]
  rfl

/-- Reading the last key from the table leaves the image in the cache. -/
theorem get_colliding (wal : Bytes) (memtable : MemTable) {file : Bytes} {handle : TableHandle}
    (rows : TableRows handle collidingBlocks)
    (reads : handle.get 1 (some file) [129] (some (BlockCache.new 64)) =
      (.ok (some (.value [49])), some imageCache)) :
    ∃ final, attempt (.get [129]) []
        ((collidingFilled wal memtable).flushed file ⟨[[⟨1, handle⟩], []]⟩) = .ok final ∧
      final.engine.version = ⟨[[⟨1, handle⟩], []]⟩ ∧ final.disk.sst 1 = some file ∧
      final.engine.cache = imageCache := by
  obtain ⟨inside, known⟩ := rows.not_skipped_colliding (show [129] ∈ _ from mem_keys_colliding 129 (by decide))
  have found : (byteTables smallSizing).get 1 handle (some file) [129] (BlockCache.new 64) =
      (.ok (some (.value [49])), imageCache) := by
    simp only [byteTables, reads]
    rfl
  have searched := @searchTables_of_found (byteTables smallSizing)
    ((collidingFilled wal memtable).flushed file ⟨[[⟨1, handle⟩], []]⟩) ⟨1, handle⟩ [129] [49]
    imageCache [] inside known found
  have gets : get [129] ((collidingFilled wal memtable).flushed file ⟨[[⟨1, handle⟩], []]⟩) = _ :=
    searched
  exact ⟨_, attempt_get rfl gets, rfl, rfl, rfl⟩

/-- **The cache answers for another block.**  The pairs are stored and flushed, and the
last key is read.  A lookup of another key then finds a block in the cache and returns
that the key is absent; without the cache it fails. -/
theorem cache_answers_for_another_block :
    ∃ engine final, openWith collidingOptions (Disk.empty (byteTables smallSizing)) = .ok engine ∧
      attemptAll collidingRun ⟨Disk.empty (byteTables smallSizing), engine, []⟩ = .ok final ∧
      ∃ table ∈ final.engine.version.tablesNewestFirst,
        (TableHandle.get table.id table.handle (final.disk.sst table.id) [65]
          (some final.engine.cache)).1 = .ok none ∧
        (TableHandle.get table.id table.handle (final.disk.sst table.id) [65] none).1 =
          .error .corruptedRecord := by
  obtain ⟨file, handle, created, isIndex, rows, front, back, length, isFile⟩ :=
    create_colliding collidingOptions.bloomFalsePositiveRate
  obtain ⟨reads, hits, fails⟩ := lookups_colliding isIndex rows length isFile
  have small : (Db.new (byteTables smallSizing) collidingOptions).engine.memtable.approximateSize +
      (collidingPairs.map fun pair => pair.1.length + pair.2.length).sum <
        (Db.new (byteTables smallSizing) collidingOptions).engine.options.memtableSizeBytes := by
    have total := total_colliding
    have none : (Db.new (byteTables smallSizing)
      collidingOptions).engine.memtable.approximateSize = 0 := rfl
    have limit : (Db.new (byteTables smallSizing)
      collidingOptions).engine.options.memtableSizeBytes = 1099511627776 := rfl
    omega
  obtain ⟨wal, puts⟩ := attemptAll_putAll rfl valid_puts_colliding small
  obtain ⟨final, read, version, isTable, cache⟩ := get_colliding wal
    (collidingPairs.foldl (fun table pair => table.insert pair.1 (.value pair.2)) MemTable.new)
    rows reads
  have filled : attemptAll (putAll collidingPairs)
      (Db.new (byteTables smallSizing) collidingOptions) = .ok (collidingFilled wal
        (collidingPairs.foldl (fun table pair => table.insert pair.1 (.value pair.2))
          MemTable.new)) := puts
  refine ⟨(Db.new (byteTables smallSizing) collidingOptions).engine, final, rfl, ?_, ⟨1, handle⟩, ?_,
    ?_, ?_⟩
  · change attemptAll collidingRun (Db.new (byteTables smallSizing) collidingOptions) = .ok final
    rw [collidingRun, attemptAll_append, filled]
    dsimp only
    rw [attemptAll, flush_colliding (iter_inserted valid_colliding.sorted) created]
    dsimp only
    rw [attemptAll, read]
    rfl
  · rw [version]
    exact List.mem_singleton_self _
  · rw [isTable, cache]
    exact hits
  · rw [isTable]
    exact fails

end Colliding

end LsmStore
