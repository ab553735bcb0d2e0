import LsmStore.LevelWrap
import LsmStore.TableCreate

/-!
# The engine over its own table files

The byte format of the table files is a sound table format for every run of
entries whose lengths fit the fields of the format (`TableFits`).  So what is
proved of the engine over a sound format holds of the engine as it stores its
tables: over a whole run, a read returns what a reference map returns after the
same writes.

The lengths that must fit are those of the data blocks and of the filter, and
the number of data blocks, all written as 32-bit numbers, and the length of the
file.
-/

set_option autoImplicit false

namespace LsmStore

open Foundation

/-- The byte format of the table files. -/
def byteTables (sizing : BloomSizing) : TableFormat where
  File := Bytes
  Handle := TableHandle
  Cache := BlockCache
  emptyCache options := BlockCache.new options.cacheSizeBytes
  create options entries :=
    TableHandle.create sizing entries options.bloomFalsePositiveRate options.blockSize
  openFile := TableHandle.openFile
  smallestKey handle := handle.smallest
  largestKey handle := handle.largest
  sizeBytes handle := handle.sizeBytes
  containsRange handle key := handle.containsRange key
  mightContain handle key := handle.bloom.mightContain key
  get id handle file key cache :=
    let (found, after) := handle.get id file key (some cache)
    (found, after.getD cache)
  iter handle file :=
    match TableIterator.new handle file with
    | .error cause => .error cause
    | .ok iterator => .ok (iterator.items file)

/-- The parts of the table that the engine would create from some entries. -/
def partsFor (sizing : BloomSizing) (options : Options) (entries : List (Key × Entry)) :
    TableParts :=
  tableParts sizing entries options.bloomFalsePositiveRate options.blockSize

/-- No data block of a table reaches `2 ^ 32` bytes. -/
def BlocksFit (options : Options) (entries : List (Key × Entry)) : Prop :=
  ∀ block ∈ cutBlocks options.blockSize entries, (blockBytes block).length < 2 ^ 32

/-- The lengths of a table fit the fields of its file. -/
structure TableFits (sizing : BloomSizing) (options : Options) (entries : List (Key × Entry)) :
    Prop where
  blocks : BlocksFit options entries
  few : (cutBlocks options.blockSize entries).length < 2 ^ 32
  filter : (tableFilter sizing options.bloomFalsePositiveRate entries).bits.length < 2 ^ 32
  file : (partsFor sizing options entries).bytes.length ≤ u64Max

instance (options : Options) (entries : List (Key × Entry)) : Decidable (BlocksFit options entries) :=
  inferInstanceAs (Decidable (∀ block ∈ _, _))

instance (sizing : BloomSizing) (options : Options) (entries : List (Key × Entry)) :
    Decidable (TableFits sizing options entries) :=
  decidable_of_iff (BlocksFit options entries ∧
      (cutBlocks options.blockSize entries).length < 2 ^ 32 ∧
      (tableFilter sizing options.bloomFalsePositiveRate entries).bits.length < 2 ^ 32 ∧
      (partsFor sizing options entries).bytes.length ≤ u64Max)
    ⟨fun fits => ⟨fits.1, fits.2.1, fits.2.2.1, fits.2.2.2⟩,
      fun fits => ⟨fits.blocks, fits.few, fits.filter, fits.file⟩⟩

/-- A new table leaves the cached blocks of the others as they are in their files. -/
theorem TableParts.Cached.update {files : UInt64 → Option Bytes} {key : BlockKey}
    {block : BlockData} (cached : TableParts.Cached files key block) {id : UInt64}
    (unused : files id = none) (file : Bytes) :
    TableParts.Cached (Function.update files id (some file)) key block := by
  obtain ⟨held, handle, entry, isFile, rest⟩ := cached
  refine ⟨held, handle, entry, ?_, rest⟩
  have different : key.tableId ≠ id := by
    intro same
    rw [same, unused] at isFile
    cases isFile
  rw [Function.update_of_ne different]
  exact isFile

/-- **The byte format is sound** for tables whose lengths fit. -/
def byteTables_sound (sizing : BloomSizing) : (byteTables sizing).Sound (TableFits sizing) where
  Holds handle file entries :=
    ∃ parts : TableParts, parts.Holds entries ∧ file = parts.bytes ∧ handle = parts.handle
  Coherent files cache := cache.Keeps (TableParts.Cached files)
  valid := by
    rintro handle file entries ⟨parts, holds, _, _⟩
    exact holds.valid
  create_ok := by
    intro options entries valid fits
    exact ⟨_, _, create_eq valid fits.blocks fits.file, _,
      tableParts_holds valid fits.blocks fits.few fits.filter fits.file, rfl, rfl⟩
  openFile_ok := by
    rintro handle file entries ⟨parts, holds, rfl, rfl⟩
    exact holds.openFile_bytes
  smallestKey_eq := by
    rintro handle file entries ⟨parts, holds, rfl, rfl⟩
    exact congrArg firstKey holds.flatten_eq
  largestKey_eq := by
    rintro handle file entries ⟨parts, holds, rfl, rfl⟩
    exact congrArg lastKey holds.flatten_eq
  not_skipped := by
    rintro handle file entries key ⟨parts, holds, rfl, rfl⟩ found
    rw [← holds.flatten_eq] at found
    exact holds.rows.not_skipped found
  get_ok := by
    rintro handle file entries files cache id key ⟨parts, holds, rfl, rfl⟩ here coherent
    obtain ⟨after, found, still, some_⟩ := holds.get_eq here
      (show TableParts.CoherentWith files (some cache) by rintro _ ⟨⟩; exact coherent) key
    obtain ⟨resident, rfl⟩ := Option.isSome_iff_exists.mp some_
    refine ⟨resident, ?_, still resident rfl⟩
    simp only [byteTables, found]
    rfl
  iter_ok := by
    rintro handle file entries ⟨parts, holds, rfl, rfl⟩
    obtain ⟨iterator, isNew, items⟩ := holds.exists_iterator
    simp only [byteTables, isNew, items]
  coherent_empty files options := BlockCache.keeps_new _ _
  coherent_create id file coherent unused :=
    BlockCache.Keeps.mono coherent fun _ _ cached => cached.update unused file

/-! ## Whole runs -/

/-- **Reads of a whole run return what the reference map returns.**  The run may
write, flush, compact, let its worker compact and close and reopen the directory
in any order; no file operation fails.  Asked of it is that the lengths of the
tables it writes fit their fields, and that a reopening finds no table in a level
whose number needs more than 32 bits.  It comes to its end unless the 64-bit
arithmetic of the engine runs over: no table id is left, or the sizes that the
compaction picker computes are too large. -/
theorem run_refines_reference (sizing : BloomSizing) {options : Options}
    (positive : 1 ≤ options.maxLevels) {start : Db (byteTables sizing)}
    (opened : openNew (byteTables sizing) options = .ok start) (commands : List Command)
    (admitted : AllSteps (Admitted (TableFits sizing)) commands start) :
    (∃ final, executeAll commands start = .ok final ∧
      ∀ key, validateKey key = .ok () →
        final.eval (get key) = .ok (reference (commands.filterMap Command.operation) key)) ∨
    executeAll commands start = .error .panic ∧ ¬ AllSteps Safe commands start := by
  rw [openNew_eq (byteTables sizing)] at opened
  cases opened
  have consistent := new_consistent (byteTables_sound sizing) positive
  rcases run_outcome consistent admitted with ⟨final, executed⟩ | panics
  · refine .inl ⟨final, executed, fun key valid => ?_⟩
    have steps := run_steps consistent admitted executed Ghost.start
    have refines := steps_refines steps consistent (new_refines options) key
    rw [history_afterAll executed] at refines
    rw [(steps_consistent steps consistent).eval_get valid, refines]
    rfl
  · exact .inr panics

/-- Options for a small database. -/
def tinyOptions : Options where
  memtableSizeBytes := 100
  l0CompactionTrigger := 4
  levelSizeMultiplier := 2
  maxLevels := 2
  bloomFalsePositiveRate := 0.01
  blockSize := 64
  cacheSizeBytes := 64

/-- The table of a single short entry fits. -/
theorem tinyTable_fits : TableFits smallSizing tinyOptions [([97], .value [49])] :=
  ⟨by unfold BlocksFit; decide +kernel, by decide +kernel, by decide +kernel, by decide +kernel⟩

/-- A value that was flushed into a table file is read back from its bytes. -/
theorem run_refines_reference_flushed :
    ∃ start final : Db (byteTables smallSizing),
      openNew (byteTables smallSizing) tinyOptions = .ok start ∧
      executeAll [.put [97] [49], .flush] start = .ok final ∧
      final.eval (get [97]) = .ok (some [49]) := by
  have opened := openNew_eq (byteTables smallSizing) tinyOptions
  have written : ∀ next, execute (.put [97] [49]) (Db.new (byteTables smallSizing) tinyOptions) =
      .ok next → next = (Db.new (byteTables smallSizing) tinyOptions).written (.put [97] [49]) := by
    intro next executed
    exact (Except.ok.inj executed).symm
  have admitted : AllSteps (Admitted (TableFits smallSizing)) [.put [97] [49], .flush]
      (Db.new (byteTables smallSizing) tinyOptions) := by
    refine ⟨tinyTable_fits, fun next executed => ⟨?_, fun _ _ => trivial⟩⟩
    rw [written next executed]
    exact tinyTable_fits
  have safe : AllSteps Safe [.put [97] [49], .flush]
      (Db.new (byteTables smallSizing) tinyOptions) := by
    have room : Roomy (Db.new (byteTables smallSizing) tinyOptions) := by
      change (1 : UInt64).toNat + 1 ≤ u64Max
      decide
    refine ⟨room, fun next executed => ⟨?_, fun _ _ => trivial⟩⟩
    rw [written next executed]
    exact room
  rcases run_refines_reference smallSizing (by decide) opened [.put [97] [49], .flush] admitted with
    ⟨final, executed, reads⟩ | ⟨_, unsafe_⟩
  · exact ⟨_, final, opened, executed, reads [97] rfl⟩
  · exact absurd safe unsafe_

/-! ## Levels beyond 32 bits -/

/-- The parts of the table of one value under the options with too many levels. -/
def wideParts (value : UInt8) : TableParts := partsFor smallSizing wideOptions [([1], .value [value])]

theorem wideTable_fits {value : UInt8} (isValue : value = 10 ∨ value = 20) :
    TableFits smallSizing wideOptions [([1], .value [value])] := by
  rcases isValue with rfl | rfl
  · exact ⟨by unfold BlocksFit; decide +kernel, by decide +kernel, by decide +kernel,
      by decide +kernel⟩
  · exact ⟨by unfold BlocksFit; decide +kernel, by decide +kernel, by decide +kernel,
      by decide +kernel⟩

/-- A table file is longer than the footer, hence than the size limit of a level. -/
theorem wideTable_heavy {value : UInt8} (isValue : value = 10 ∨ value = 20) :
    @Heavy (byteTables smallSizing) wideOptions (wideParts value).handle := by
  have short : (wideParts value).bytes.length ≤ u64Max := (wideTable_fits isValue).file
  have long : 10 < (wideParts value).bytes.length := by
    have footer : 10 < footerLen := by decide
    rw [TableParts.length_bytes]
    omega
  generalize wideParts value = parts at short long
  exact ⟨long, short⟩

theorem create_wideTable {value : UInt8} (isValue : value = 10 ∨ value = 20) :
    (byteTables smallSizing).create wideOptions [([1], .value [value])] =
      .ok ((wideParts value).bytes, (wideParts value).handle) :=
  create_eq ⟨List.pairwise_singleton _ _, by simp⟩ (wideTable_fits isValue).blocks
    (wideTable_fits isValue).file

def wideSetting : WrapSetting (byteTables smallSizing) (TableFits smallSizing) wideOptions
    [1] [10] [20] where
  sinking := wideOptions_sinking
  oldFile := (wideParts 10).bytes
  oldHandle := (wideParts 10).handle
  newFile := (wideParts 20).bytes
  newHandle := (wideParts 20).handle
  oldAccepted := accepted_wideOld
  newAccepted := accepted_wideNew
  oldSmall := small_wideOld
  newSmall := small_wideNew
  oldFits := wideTable_fits (.inl rfl)
  newFits := wideTable_fits (.inr rfl)
  oldCreated := create_wideTable (.inl rfl)
  newCreated := create_wideTable (.inr rfl)
  oldHeavy := wideTable_heavy (.inl rfl)
  newHeavy := wideTable_heavy (.inr rfl)

/-- **A write is lost beyond 32 bits.** With `2 ^ 32 + 2` levels, a run without a
failing file operation that ends in a clean reopening reads the value that was
overwritten. -/
theorem overwritten_value_beyond_32_bits :
    ∃ start final : Db (byteTables smallSizing),
      openNew (byteTables smallSizing) wideOptions = .ok start ∧
      executeAll (wrapRun (2 ^ 32) [1] [10] [20] ++ [.reopen]) start = .ok final ∧
      final.eval (get [1]) = .ok (some [10]) ∧
      reference ((wrapRun (2 ^ 32) [1] [10] [20] ++ [Command.reopen]).filterMap
        Command.operation) [1] = some [20] := by
  obtain ⟨db, drained, older, newer, version, executed, closed, consistent, reopened, inVersion,
    oldEntries, _, top, deeper, tables, nonempty, allOlder, _⟩ :=
    wrapRun_reopens (byteTables_sound smallSizing) wideSetting
  have writes := writes_wrapRun (2 ^ 32) (show (Command.put [1] [10]).operation = _ from rfl)
    (show (Command.put [1] [20]).operation = _ from rfl)
  generalize wrapRun (2 ^ 32) [1] [10] [20] = commands at *
  refine ⟨Db.new (byteTables smallSizing) wideOptions,
    { drained with
      engine := Engine.opened wideOptions drained.engine.manifest version MemTable.new },
    openNew_eq (byteTables smallSizing) wideOptions, ?_, ?_, ?_⟩
  · rw [executeAll_append, executed]
    dsimp only
    rw [executeAll, reopened]
    rfl
  · have held : ∀ table ∈ version.tablesNewestFirst,
        Held (byteTables_sound smallSizing) drained.disk.sst table :=
      fun table member => consistent.stocked.held table (inVersion table member)
    refine (eval_get (byteTables_sound smallSizing) held
      ((byteTables_sound smallSizing).coherent_empty _ _) rfl).trans ?_
    rw [Db.reading, Db.tableLookup]
    dsimp only [Engine.opened]
    rw [tables, lookupIn_stale nonempty allOlder oldEntries]
    rfl
  · rw [List.filterMap_append, writes]
    rfl

end LsmStore
