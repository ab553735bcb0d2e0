import LsmStore.Runs

/-!
# Levels beyond 32 bits

A compaction records the level of its output in 32 bits.  With more than `2 ^ 32`
levels a table can sink to level `2 ^ 32`, which the manifest lists as level 0;
after a reopening it is read before everything newer that lies in a deeper level.

The run that shows it writes a key, lets the table sink to level `2 ^ 32` by as
many compactions, writes the key again and compacts once more (`wrapRun`).  It is
followed over any format, for options under which every compaction moves one
table one level down (`Sinking`).
-/

set_option autoImplicit false

namespace LsmStore

open Foundation Relation

variable {fmt : TableFormat} {Fits : Options → List (Key × Entry) → Prop}

/-- Options under which a compaction moves a single table one level down, and
levels whose number does not fit into 32 bits. -/
structure Sinking (options : Options) : Prop where
  trigger : options.l0CompactionTrigger = 1
  multiplier : options.levelSizeMultiplier = 1
  levels : options.maxLevels = 2 ^ 32 + 2

/-- The table is larger than the limit of every level. -/
def Heavy (options : Options) (handle : fmt.Handle) : Prop :=
  options.memtableSizeBytes < fmt.sizeBytes handle ∧ fmt.sizeBytes handle ≤ u64Max

/-- The database is consistent and its levels hold exactly the placed tables. -/
structure Laden (sound : fmt.Sound Fits) (options : Options) (cargo : Placement fmt)
    (db : Db fmt) : Prop where
  consistent : Consistent sound db
  options_eq : db.engine.options = options
  levels : ∀ depth, db.engine.version.level depth = cargo.tablesAt depth

/-! ## Picking -/

theorem pickLevel_sinks {version : Version fmt} {options : Options} {table : SsTable fmt}
    {depth limit : Nat} (multiplier : options.levelSizeMultiplier = 1)
    (here : version.level depth = [table]) (next : version.level (depth + 1) = [])
    (inside : depth < version.levels.length) (limitFits : limit ≤ u64Max)
    (heavy : limit < table.sizeBytes ∧ table.sizeBytes ≤ u64Max) {steps start remaining : Nat}
    (reaches : start + steps = depth) (enough : steps < remaining)
    (above : ∀ other, start ≤ other → other < depth → version.level other = []) :
    pickLevel version options remaining start limit = .ok (some ⟨[table], depth + 1⟩) := by
  have levelAt : ∀ other, other < version.levels.length →
      version.levels[other]? = some (version.level other) := by
    intro other bound
    rw [Version.level, List.getElem?_eq_getElem bound, Option.getD_some]
  induction steps generalizing start remaining with
  | zero =>
      obtain ⟨remaining, rfl⟩ : ∃ less, remaining = less + 1 := ⟨remaining - 1, by omega⟩
      obtain rfl : start = depth := by omega
      have single : ([table].map SsTable.sizeBytes).sum = table.sizeBytes := by simp
      rw [pickLevel, levelAt start inside]
      dsimp only
      rw [here, single, if_neg (Nat.not_lt.mpr heavy.2), if_pos heavy.1]
      dsimp only
      rw [next]
      rfl
  | succ steps ih =>
      obtain ⟨remaining, rfl⟩ : ∃ less, remaining = less + 1 := ⟨remaining - 1, by omega⟩
      have empty := above start (le_refl _) (by omega)
      have sameLimit : min (limit * options.levelSizeMultiplier) u64Max = limit := by
        rw [multiplier, Nat.mul_one]
        exact Nat.min_eq_left limitFits
      rw [pickLevel, levelAt start (by omega)]
      dsimp only
      rw [empty, List.map_nil, List.sum_nil, if_neg (Nat.not_lt_zero _), if_neg (Nat.not_lt_zero _),
        sameLimit]
      refine ih (by omega) (by omega) ?_
      intro other after before
      exact above other (by omega) before

/-- The only table above some level, with room below it, is picked alone. -/
theorem pickCompaction_sinks {version : Version fmt} {options : Options}
    (sinking : Sinking options) (length : version.levels.length = options.maxLevels)
    {table : SsTable fmt} {depth : Nat} (here : version.level depth = [table])
    (next : version.level (depth + 1) = []) (above : ∀ other, other < depth →
      version.level other = []) (inside : depth + 1 < options.maxLevels)
    (heavy : Heavy options table.handle) :
    pickCompaction version options = .ok (some ⟨[table], depth + 1⟩) := by
  cases isLevels : version.levels with
  | nil =>
      rw [isLevels] at length
      have := length.symm.trans List.length_nil
      omega
  | cons l0 deeper =>
      have top : version.level 0 = l0 := by rw [Version.level, isLevels]; rfl
      unfold pickCompaction
      rw [isLevels]
      dsimp only
      cases depth with
      | zero =>
          have one : min 1 (options.maxLevels - 1) = 1 := by omega
          have long : [table].length ≥ 1 := le_refl 1
          rw [← top, here, sinking.trigger, if_pos long, next, one]
          rfl
      | succ depth =>
          have empty : l0 = [] := top.symm.trans (above 0 (by omega))
          have noOverflow : ¬ options.memtableSizeBytes * 1 > u64Max := by
            have := heavy.1.le.trans heavy.2
            omega
          rw [empty, sinking.trigger, List.length_nil, if_neg (by omega), if_neg noOverflow]
          refine pickLevel_sinks sinking.multiplier here next (by omega) (by omega) ?_
            (show 1 + depth = depth + 1 by omega) (by omega) ?_
          · rw [Nat.mul_one]
            exact heavy
          · intro other _ before
            exact above other before

/-! ## One compaction -/

/-- A database after one table was written: the new one holds the entries, the
old ones what they held. -/
structure Gains (db after : Db fmt) (handle : fmt.Handle) (entries : List (Key × Entry)) :
    Prop where
  new : entriesOn after.disk.sst ⟨db.engine.manifest.nextTableId, handle⟩ = entries
  old : ∀ table ∈ db.engine.version.tablesNewestFirst,
    entriesOn after.disk.sst table = entriesOn db.disk.sst table
  nextId : after.engine.manifest.nextTableId.toNat = db.engine.manifest.nextTableId.toNat + 1

theorem mergedEntries_single {sound : fmt.Sound Fits} {files : UInt64 → Option fmt.File}
    {table : SsTable fmt} {key : Key} {value : Bytes} (held : Held sound files table)
    (entries : entriesOn files table = [(key, .value value)]) (level : Nat) (drops : Bool) :
    mergedEntries files ⟨[table], level⟩ drops = [(key, .value value)] := by
  obtain ⟨_, valid, spec⟩ := @mergedEntries_spec fmt Fits sound files ⟨[table], level⟩
    (by
      intro input isInput
      rw [List.mem_singleton.mp isInput]
      exact held) drops
  refine valid.sorted.ext (List.pairwise_singleton _ _) ?_
  intro wanted
  rw [spec wanted]
  change keepEntry drops (List.findSome? (entryIn (entriesOn files) wanted) [table]) = _
  rw [List.findSome?_cons, entryIn, entries]
  cases found : valueAt [(key, Entry.value value)] wanted with
  | none => rfl
  | some entry =>
      have isValue : entry = .value value := by
        have member := mem_of_valueAt found
        exact congrArg Prod.snd (List.mem_singleton.mp member)
      subst isValue
      cases drops <;> rfl

section Sink

variable {sound : fmt.Sound Fits} {options : Options} {db : Db fmt} {key : Key} {value : Bytes}
  {file : fmt.File} {handle : fmt.Handle}

/-- **A compaction moves the uppermost table one level down.** -/
theorem Laden.compact {id : UInt64} {depth : Nat} {rest : Placement fmt}
    (laden : Laden sound options ((⟨id, handle⟩, depth) :: rest) db) (sinking : Sinking options)
    (below : ∀ item ∈ rest, depth + 1 < item.2 ∧ item.1.id ≠ id)
    (inside : depth + 1 < options.maxLevels) (heavy : Heavy options handle) (fits : Fits options [(key, .value value)])
    (created : fmt.create options [(key, .value value)] = .ok (file, handle))
    (entries : entriesOn db.disk.sst ⟨id, handle⟩ = [(key, .value value)]) (room : Roomy db) :
    ∃ after, compactOnce db = .ok () after ∧
      Laden sound options ((⟨db.engine.manifest.nextTableId, handle⟩, depth + 1) :: rest) after ∧
      Gains db after handle [(key, .value value)] ∧
      after.engine.memtable = db.engine.memtable ∧ after.engine.inbox = db.engine.inbox ∧
      after.engine.running = db.engine.running := by
  obtain ⟨disk, engine, faults⟩ := db
  obtain rfl : faults = [] := laden.consistent.noFaults
  obtain rfl : engine.options = options := laden.options_eq
  have consistent := laden.consistent
  have elsewhere : ∀ other, other ≤ depth + 1 → Placement.tablesAt rest other = [] := by
    intro other bound
    refine List.eq_nil_iff_forall_not_mem.mpr ?_
    intro table member
    have := (below _ (Placement.mem_tablesAt.mp member)).1
    omega
  have levelEq : ∀ other, engine.version.level other = if other = depth
      then ⟨id, handle⟩ :: Placement.tablesAt rest other else Placement.tablesAt rest other :=
    fun other => (laden.levels other).trans (Placement.tablesAt_cons _ _ _)
  have here : engine.version.level depth = [⟨id, handle⟩] := by
    rw [levelEq, if_pos rfl, elsewhere depth (by omega)]
  have next : engine.version.level (depth + 1) = [] := by
    rw [levelEq, if_neg (by omega), elsewhere (depth + 1) (le_refl _)]
  have above : ∀ other, other < depth → engine.version.level other = [] := by
    intro other before
    rw [levelEq, if_neg (by omega), elsewhere other (by omega)]
  have length : engine.version.levels.length = engine.options.maxLevels := consistent.depth
  have picked := pickCompaction_sinks sinking length here next above inside heavy
  have inVersion : (⟨id, handle⟩ : SsTable fmt) ∈ engine.version.tablesNewestFirst :=
    Version.mem_tables_iff.mpr ⟨depth, by rw [here]; exact List.mem_singleton_self _⟩
  have merged : ∀ drops, mergedEntries disk.sst ⟨[⟨id, handle⟩], depth + 1⟩ drops =
      [(key, .value value)] :=
    mergedEntries_single (consistent.stocked.held _ inVersion) entries (depth + 1)
  have fits' : Fits engine.options (mergedEntries disk.sst ⟨[⟨id, handle⟩], depth + 1⟩
      (dropTombstones engine.version engine.options ⟨[⟨id, handle⟩], depth + 1⟩)) := by
    rw [merged]
    exact fits
  have created' : fmt.create engine.options (mergedEntries disk.sst ⟨[⟨id, handle⟩], depth + 1⟩
      (dropTombstones engine.version engine.options ⟨[⟨id, handle⟩], depth + 1⟩)) =
        .ok (file, handle) := by
    rw [merged]
    exact created
  have done := compactOnce_noFaults consistent.stocked.held consistent.stocked.levelled length
    picked consistent.unlisted room created'
  refine ⟨_, done, ⟨consistent.compacted room picked fits' created', rfl, ?_⟩,
    ⟨?_, Stocked.entriesOn_update disk.sst consistent.fresh file, toNat_succ room⟩, rfl, rfl, rfl⟩
  · intro other
    change (installed engine.version _ _).level other = _
    rw [level_installed _ _ _ (show depth + 1 < engine.version.levels.length by omega),
      Placement.tablesAt_cons, levelEq]
    have keepsRest : CompactionJob.keeps ⟨[⟨id, handle⟩], depth + 1⟩
        (Placement.tablesAt rest other) = Placement.tablesAt rest other := by
      refine List.filter_eq_self.mpr ?_
      intro table member
      have different := (below _ (Placement.mem_tablesAt.mp member)).2
      simpa [CompactionJob.takes] using different
    have keepsHere : CompactionJob.keeps ⟨[⟨id, handle⟩], depth + 1⟩
        (⟨id, handle⟩ :: Placement.tablesAt rest other) = Placement.tablesAt rest other := by
      have taken : CompactionJob.takes ⟨[⟨id, handle⟩], depth + 1⟩ ⟨id, handle⟩ = true :=
        CompactionJob.takes_of_mem (List.mem_singleton_self _)
      refine Eq.trans ?_ keepsRest
      exact List.filter_cons_of_neg (by simp [taken])
    dsimp only
    by_cases isHere : other = depth
    · rw [if_pos isHere, if_neg (by omega), if_neg (by omega), keepsHere]
    · rw [if_neg isHere, keepsRest]
      by_cases isNext : other = depth + 1
      · rw [if_pos isNext, if_pos isNext, isNext, elsewhere (depth + 1) (le_refl _)]
        rfl
      · rw [if_neg isNext, if_neg isNext]
  · have valid := (consistent.stocked.held _ inVersion).ranged.valid
    have valid' : ValidRun [(key, Entry.value value)] := entries ▸ valid
    exact (held_of_create sound disk.sst engine.manifest.nextTableId valid' fits created).2

/-- Repeated compactions let a single table sink. -/
theorem Laden.sink {id : UInt64} {depth : Nat}
    (laden : Laden sound options [(⟨id, handle⟩, depth)] db) (sinking : Sinking options)
    (heavy : Heavy options handle) (fits : Fits options [(key, .value value)])
    (created : fmt.create options [(key, .value value)] = .ok (file, handle))
    (entries : entriesOn db.disk.sst ⟨id, handle⟩ = [(key, .value value)]) (count : Nat)
    (inside : depth + count < options.maxLevels)
    (room : db.engine.manifest.nextTableId.toNat + count ≤ u64Max) :
    ∃ after id', executeAll (List.replicate count .compact) db = .ok after ∧
      Laden sound options [(⟨id', handle⟩, depth + count)] after ∧
      entriesOn after.disk.sst ⟨id', handle⟩ = [(key, .value value)] ∧
      after.engine.manifest.nextTableId.toNat = db.engine.manifest.nextTableId.toNat + count ∧
      after.engine.memtable = db.engine.memtable ∧ after.engine.inbox = db.engine.inbox ∧
      after.engine.running = db.engine.running := by
  induction count generalizing db id depth with
  | zero => exact ⟨db, id, rfl, laden, entries, rfl, rfl, rfl, rfl⟩
  | succ count ih =>
      obtain ⟨middle, done, laden', gains, memtable, inbox, running⟩ := laden.compact sinking
        (List.forall_mem_nil _) (by omega) heavy fits created entries
        (show db.engine.manifest.nextTableId.toNat + 1 ≤ u64Max by omega)
      have nextId := gains.nextId
      obtain ⟨after, id', executed, laden'', entries', nextId', memtable', inbox', running'⟩ :=
        ih laden' gains.new (by omega) (by omega)
      refine ⟨after, id', ?_, ?_, entries', by omega, memtable'.trans memtable,
        inbox'.trans inbox, running'.trans running⟩
      · rw [List.replicate_succ, executeAll, execute_of_ok (show Command.compact.action db = _
          from done)]
        exact executed
      · rw [Nat.add_right_comm, Nat.add_assoc] at laden''
        exact laden''

/-- A flush puts its table in front of level 0 and asks the worker for a pass. -/
theorem Laden.flush {cargo : Placement fmt} (laden : Laden sound options cargo db)
    (sinking : Sinking options) (fits : Fits options [(key, .value value)])
    (created : fmt.create options [(key, .value value)] = .ok (file, handle))
    (memtable : db.engine.memtable.iter = [(key, .value value)]) (room : Roomy db)
    (running : db.engine.running = true) :
    ∃ after, execute .flush db = .ok after ∧
      Laden sound options ((⟨db.engine.manifest.nextTableId, handle⟩, 0) :: cargo) after ∧
      Gains db after handle [(key, .value value)] ∧
      after.engine.memtable = MemTable.new ∧ after.engine.inbox = db.engine.inbox + 1 ∧
      after.engine.running = true := by
  obtain ⟨disk, engine, faults⟩ := db
  obtain rfl : faults = [] := laden.consistent.noFaults
  obtain rfl : engine.options = options := laden.options_eq
  have consistent := laden.consistent
  have fits' : Fits engine.options engine.memtable.iter := by
    rw [memtable]
    exact fits
  have created' : fmt.create engine.options engine.memtable.iter = .ok (file, handle) := by
    rw [memtable]
    exact created
  have nonempty : engine.memtable.isEmpty = false := by
    unfold MemTable.isEmpty
    change engine.memtable.iter.isEmpty = false
    rw [memtable]
    rfl
  have levels : engine.version.levels ≠ [] := by
    intro none_
    have depth : engine.version.levels.length = engine.options.maxLevels := consistent.depth
    rw [none_, List.length_nil, sinking.levels] at depth
    omega
  obtain ⟨version, pushed⟩ := pushFront_ok levels ⟨engine.manifest.nextTableId, handle⟩
  obtain ⟨_, _, top, deeper⟩ := pushFront_eq_ok pushed
  have flushed := @flushMemtable_noFaults fmt disk engine file handle version nonempty room
    created' consistent.unlisted pushed
  have consistent' := consistent.flushed room fits' created' pushed
  have asks : (version.level 0).length ≥ engine.options.l0CompactionTrigger ∧
      engine.running = true := by
    rw [sinking.trigger, top, List.length_cons]
    exact ⟨Nat.le_add_left _ _, running⟩
  refine ⟨_, execute_of_ok (bind_eq_ok.mpr ⟨(), _, flushed, if_pos asks⟩), ⟨?_, rfl, ?_⟩,
    ⟨?_, Stocked.entriesOn_update disk.sst consistent.fresh file, toNat_succ room⟩, rfl, rfl,
    running⟩
  · exact (Step.bookkeeping consistent' Ghost.start engine.lastError (engine.inbox + 1)
      engine.running).consistent consistent'
  · intro depth
    change version.level depth = _
    rw [Placement.tablesAt_cons]
    cases depth with
    | zero => rw [if_pos rfl, top, ← laden.levels 0]
    | succ depth =>
        rw [if_neg (by omega), deeper (depth + 1) (by omega)]
        exact laden.levels (depth + 1)
  · exact (consistent.flushed_held fits' created').2.trans memtable

/-- A small write only goes to the log and the memtable. -/
theorem Laden.put {cargo : Placement fmt} (laden : Laden sound options cargo db)
    (valid : (Command.put key value).operation = some (.put key value))
    (small : (apply db.engine.memtable (.put key value)).approximateSize <
      options.memtableSizeBytes) :
    execute (.put key value) db = .ok (db.written (.put key value)) ∧
      Laden sound options cargo (db.written (.put key value)) := by
  obtain ⟨disk, engine, faults⟩ := db
  obtain rfl : faults = [] := laden.consistent.noFaults
  obtain rfl : engine.options = options := laden.options_eq
  rcases @put_cases fmt key value with ⟨refused, _⟩ | ⟨_, opFits, keyed, acts⟩
  · rw [valid] at refused
    cases refused
  · refine ⟨execute_of_ok ((acts _).trans ?_), laden.consistent.written opFits keyed, rfl,
      laden.levels⟩
    rw [write_eq opFits, if_neg (Nat.not_le.mpr small)]
    rfl

/-- The worker's remaining passes let the uppermost table sink further. -/
theorem Laden.drain {id : UInt64} {depth : Nat} {rest : Placement fmt}
    (laden : Laden sound options ((⟨id, handle⟩, depth) :: rest) db) (sinking : Sinking options)
    (requests : Nat) (below : ∀ item ∈ rest, depth + requests < item.2 ∧ item.1.id ≠ id)
    (inside : depth + requests < options.maxLevels) (heavy : Heavy options handle)
    (fits : Fits options [(key, .value value)])
    (created : fmt.create options [(key, .value value)] = .ok (file, handle))
    (entries : entriesOn db.disk.sst ⟨id, handle⟩ = [(key, .value value)])
    (room : db.engine.manifest.nextTableId.toNat + requests ≤ u64Max)
    (inbox : requests ≤ db.engine.inbox) (running : db.engine.running = true) :
    ∃ after id', LsmStore.drain requests db = .ok () after ∧
      Laden sound options ((⟨id', handle⟩, depth + requests) :: rest) after ∧
      entriesOn after.disk.sst ⟨id', handle⟩ = [(key, .value value)] ∧
      (∀ item ∈ rest, entriesOn after.disk.sst item.1 = entriesOn db.disk.sst item.1) ∧
      after.engine.memtable = db.engine.memtable := by
  induction requests generalizing db id depth with
  | zero => exact ⟨db, id, rfl, laden, entries, fun _ _ => rfl, rfl⟩
  | succ requests ih =>
      have taking : Step sound (db, Ghost.start)
          ({ db with engine := { db.engine with inbox := db.engine.inbox - 1 } }, Ghost.start) :=
        Step.bookkeeping laden.consistent Ghost.start db.engine.lastError _ db.engine.running
      have taken : Laden sound options ((⟨id, handle⟩, depth) :: rest)
          { db with engine := { db.engine with inbox := db.engine.inbox - 1 } } :=
        ⟨taking.consistent laden.consistent, laden.options_eq, laden.levels⟩
      obtain ⟨middle, done, laden', gains, memtable, inbox', running'⟩ := taken.compact sinking
        (fun item member => ⟨by have := (below item member).1; omega, (below item member).2⟩)
        (by omega) heavy fits created entries
        (show db.engine.manifest.nextTableId.toNat + 1 ≤ u64Max by omega)
      have passed : workerPass db = .ok () middle := by
        unfold workerPass
        rw [if_neg (by rw [running]; simp; omega)]
        dsimp only
        rw [done]
      have inVersion : ∀ item ∈ rest, item.1 ∈ db.engine.version.tablesNewestFirst := by
        intro item member
        refine Version.mem_tables_iff.mpr ⟨item.2, ?_⟩
        rw [laden.levels]
        exact Placement.mem_tablesAt.mpr (List.mem_cons_of_mem _ member)
      have nextId := gains.nextId
      obtain ⟨after, id', drained, laden'', entries', old, memtable'⟩ := ih laden'
        (fun item member => ⟨by have := (below item member).1; omega,
          laden.consistent.fresh item.1 (inVersion item member)⟩)
        (by omega) gains.new (by dsimp only at nextId; omega)
        (by rw [inbox']; dsimp only; omega) (running'.trans running)
      refine ⟨after, id', bind_eq_ok.mpr ⟨(), middle, passed, drained⟩, ?_, entries', ?_,
        memtable'.trans memtable⟩
      · rw [Nat.add_right_comm, Nat.add_assoc] at laden''
        exact laden''
      · intro item member
        exact (old item member).trans (gains.old item.1 (inVersion item member))

end Sink

/-! ## The run -/

/-- Writes a key, lets its table sink to level `depth`, and writes it again. -/
def wrapRun (depth : Nat) (key old new : Bytes) : List Command :=
  [.put key old, .flush] ++ (List.replicate depth .compact ++ [.put key new, .flush, .compact])

theorem writes_wrapRun (depth : Nat) {key old new : Bytes}
    (oldAccepted : (Command.put key old).operation = some (.put key old))
    (newAccepted : (Command.put key new).operation = some (.put key new)) :
    (wrapRun depth key old new).filterMap Command.operation = [.put key old, .put key new] := by
  have compacts : (List.replicate depth Command.compact).filterMap Command.operation = [] :=
    List.filterMap_replicate_of_none rfl
  unfold wrapRun
  rw [List.filterMap_append, List.filterMap_append, compacts]
  rw [List.filterMap_cons_some oldAccepted, List.nil_append, List.filterMap_cons_some newAccepted]
  rfl

theorem executeAll_append (first second : List Command) (db : Db fmt) :
    executeAll (first ++ second) db =
      match executeAll first db with
      | .error failure => .error failure
      | .ok next => executeAll second next := by
  induction first generalizing db with
  | nil => rfl
  | cons command rest ih =>
      rw [List.cons_append, executeAll, executeAll]
      cases execute command db with
      | error failure => rfl
      | ok next => exact ih next

/-- What the run asks of the options, the format and the values: every command is
accepted, no write fills the memtable, and tables are heavier than the limit. -/
structure WrapSetting (fmt : TableFormat) (Fits : Options → List (Key × Entry) → Prop)
    (options : Options) (key old new : Bytes) where
  sinking : Sinking options
  oldFile : fmt.File
  oldHandle : fmt.Handle
  newFile : fmt.File
  newHandle : fmt.Handle
  oldAccepted : (Command.put key old).operation = some (.put key old)
  newAccepted : (Command.put key new).operation = some (.put key new)
  oldSmall : key.length + old.length < options.memtableSizeBytes
  newSmall : key.length + new.length < options.memtableSizeBytes
  oldFits : Fits options [(key, .value old)]
  newFits : Fits options [(key, .value new)]
  oldCreated : fmt.create options [(key, .value old)] = .ok (oldFile, oldHandle)
  newCreated : fmt.create options [(key, .value new)] = .ok (newFile, newHandle)
  oldHeavy : Heavy options oldHandle
  newHeavy : Heavy options newHandle

theorem iter_single (key value : Bytes) :
    (apply MemTable.new (.put key value)).iter = [(key, .value value)] := rfl

theorem size_single (key value : Bytes) :
    (apply MemTable.new (.put key value)).approximateSize = key.length + value.length :=
  Nat.zero_add _

section Run

variable {options : Options} {key old new : Bytes}

/-- **The run lays the older value below the newer one, at level `2 ^ 32`.** -/
theorem wrapRun_laden (sound : fmt.Sound Fits) (setting : WrapSetting fmt Fits options key old new) :
    ∃ db older newer, executeAll (wrapRun (2 ^ 32) key old new) (Db.new fmt options) = .ok db ∧
      Laden sound options [(⟨newer, setting.newHandle⟩, 1), (⟨older, setting.oldHandle⟩, 2 ^ 32)]
        db ∧ older ≠ newer ∧
      entriesOn db.disk.sst ⟨older, setting.oldHandle⟩ = [(key, .value old)] ∧
      entriesOn db.disk.sst ⟨newer, setting.newHandle⟩ = [(key, .value new)] ∧
      db.engine.memtable = MemTable.new ∧ db.engine.inbox = 2 ∧ db.engine.running = true ∧
      db.engine.manifest.nextTableId.toNat = 2 ^ 32 + 4 := by
  have levels := setting.sinking.levels
  have wide : (2 : Nat) ^ 32 + 4 ≤ u64Max := by decide
  have laden₀ : Laden sound options [] (Db.new fmt options) :=
    ⟨new_consistent sound (by omega), rfl, level_new options⟩
  have next₀ : (Db.new fmt options).engine.manifest.nextTableId.toNat = 1 := rfl
  -- The first table reaches level 0, then sinks.
  obtain ⟨written₁, laden₁⟩ := laden₀.put setting.oldAccepted
    ((size_single key old).trans_lt setting.oldSmall)
  obtain ⟨db₂, flushed₂, laden₂, gains₂, memtable₂, inbox₂, running₂⟩ := laden₁.flush
    setting.sinking setting.oldFits setting.oldCreated (iter_single key old)
    (show 1 + 1 ≤ u64Max by omega) rfl
  have next₂ : db₂.engine.manifest.nextTableId.toNat = 2 := gains₂.nextId
  obtain ⟨db₃, older, sunk₃, laden₃, entries₃, next₃, memtable₃, inbox₃, running₃⟩ :=
    laden₂.sink setting.sinking setting.oldHeavy setting.oldFits setting.oldCreated gains₂.new
      (2 ^ 32) (by omega) (by omega)
  rw [Nat.zero_add] at laden₃
  rw [memtable₂] at memtable₃
  -- The second table is flushed and compacted once.
  obtain ⟨written₄, laden₄⟩ := laden₃.put setting.newAccepted
    (by rw [memtable₃]; exact (size_single key new).trans_lt setting.newSmall)
  have memtable₄ : (db₃.written (.put key new)).engine.memtable.iter = [(key, .value new)] := by
    change (apply db₃.engine.memtable (.put key new)).iter = _
    rw [memtable₃]
    exact iter_single key new
  obtain ⟨db₅, flushed₅, laden₅, gains₅, memtable₅, inbox₅, running₅⟩ := laden₄.flush
    setting.sinking setting.newFits setting.newCreated memtable₄
    (show db₃.engine.manifest.nextTableId.toNat + 1 ≤ u64Max by omega) (running₃.trans running₂)
  have olderIn : ∀ {db : Db fmt} {cargo : Placement fmt}, Laden sound options cargo db →
      (⟨older, setting.oldHandle⟩, 2 ^ 32) ∈ cargo →
      (⟨older, setting.oldHandle⟩ : SsTable fmt) ∈ db.engine.version.tablesNewestFirst := by
    intro db cargo laden member
    refine Version.mem_tables_iff.mpr ⟨2 ^ 32, ?_⟩
    rw [laden.levels]
    exact Placement.mem_tablesAt.mpr member
  have olderIn₄ := olderIn laden₄ (List.mem_singleton_self _)
  have olderIn₅ := olderIn laden₅ (List.mem_cons_of_mem _ (List.mem_singleton_self _))
  have next₅ : db₅.engine.manifest.nextTableId.toNat = 2 ^ 32 + 3 := by
    have := gains₅.nextId
    change _ = db₃.engine.manifest.nextTableId.toNat + 1 at this
    omega
  obtain ⟨db₆, compacted₆, laden₆, gains₆, memtable₆, inbox₆, running₆⟩ := laden₅.compact
    setting.sinking
    (by
      intro item member
      rw [List.mem_singleton.mp member]
      exact ⟨by omega, laden₄.consistent.fresh _ olderIn₄⟩)
    (by omega) setting.newHeavy setting.newFits setting.newCreated gains₅.new
    (show db₅.engine.manifest.nextTableId.toNat + 1 ≤ u64Max by omega)
  refine ⟨db₆, older, db₅.engine.manifest.nextTableId, ?_, laden₆,
    laden₅.consistent.fresh _ olderIn₅, ?_, gains₆.new, memtable₆.trans memtable₅, ?_,
    running₆.trans running₅, ?_⟩
  · have first : executeAll [.put key old, .flush] (Db.new fmt options) = .ok db₂ := by
      rw [executeAll, written₁]
      dsimp only
      rw [executeAll, flushed₂]
      rfl
    have last : executeAll [.put key new, .flush, .compact] db₃ = .ok db₆ := by
      rw [executeAll, written₄]
      dsimp only
      rw [executeAll, flushed₅]
      dsimp only
      rw [executeAll, execute_of_ok (show Command.compact.action db₅ = _ from compacted₆)]
      rfl
    rw [wrapRun, executeAll_append, first]
    dsimp only
    rw [executeAll_append, sunk₃]
    exact last
  · exact (gains₆.old _ olderIn₅).trans ((gains₅.old _ olderIn₄).trans entries₃)
  · rw [inbox₆, inbox₅]
    change db₃.engine.inbox + 1 = 2
    rw [inbox₃, inbox₂]
    rfl
  · rw [gains₆.nextId, next₅]

end Run

/-! ## Reopening -/

/-- A placement as the manifest remembers it: the number of every level modulo
`2 ^ 32`. -/
def Placement.wrapped (placed : Placement fmt) : Placement fmt :=
  placed.map fun item => (item.1, item.2 % 2 ^ 32)

theorem Placement.listing_wrapped (placed : Placement fmt) :
    placed.wrapped.listing = placed.listing := by
  unfold Placement.wrapped Placement.listing
  rw [List.map_map]
  refine List.map_congr_left ?_
  intro item _
  have cut : UInt32.ofNat (item.2 % 2 ^ 32) = UInt32.ofNat item.2 := UInt32.ofNat_mod_size
  exact congrArg (Prod.mk item.1.id) cut

/-- Opening the directory of a consistent database with `2 ^ 32` levels or more
puts every table into its level modulo `2 ^ 32`. -/
theorem openWith_wraps {sound : fmt.Sound Fits} {db : Db fmt} (consistent : Consistent sound db)
    (wide : 2 ^ 32 ≤ db.engine.options.maxLevels) :
    ∃ placed : Placement fmt, Places placed db.engine.version ∧
      placed.wrapped.Recordable db.engine.options.maxLevels ∧
      openWith db.engine.options db.disk = .ok (db.reopened placed.wrapped).engine := by
  obtain ⟨placed, places, listed⟩ := consistent.mirrored
  have recordable : placed.wrapped.Recordable db.engine.options.maxLevels := by
    intro item member
    obtain ⟨original, _, rfl⟩ := List.mem_map.mp member
    have short := Nat.mod_lt original.2 (show 0 < 2 ^ 32 by decide)
    exact ⟨by dsimp only; omega, short⟩
  refine ⟨placed, places, recordable, consistent.openWith_eq ?_ ?_ recordable⟩
  · rw [Placement.listing_wrapped]
    exact listed
  · intro item member
    obtain ⟨original, isOriginal, rfl⟩ := List.mem_map.mp member
    have inVersion := places.mem_tables isOriginal
    exact inVersion

section Stale

variable {sound : fmt.Sound Fits} {options : Options} {db : Db fmt} {older newer : SsTable fmt}
  {depth : Nat}

/-- After reopening, the table from level `2 ^ 32` is read before the one above
it. -/
theorem Laden.wraps (laden : Laden sound options [(newer, depth), (older, 2 ^ 32)] db)
    (sinking : Sinking options) (positive : 1 ≤ depth) (short : depth < 2 ^ 32) :
    ∃ version, openWith options db.disk =
        .ok (Engine.opened options db.engine.manifest version db.engine.memtable) ∧
      (∀ table ∈ version.tablesNewestFirst, table ∈ db.engine.version.tablesNewestFirst) ∧
      ∃ top deeper, version.tablesNewestFirst = top ++ deeper ∧ top ≠ [] ∧
        (∀ table ∈ top, table = older) ∧ newer ∈ deeper := by
  have consistent := laden.consistent
  have levels := sinking.levels
  obtain ⟨placed, places, recordable, opened⟩ := openWith_wraps consistent
    (by rw [laden.options_eq]; omega)
  rw [laden.options_eq] at recordable
  have placedIff : ∀ (table : SsTable fmt) (level : Nat), (table, level) ∈ placed ↔
      (table, level) ∈ [(newer, depth), (older, 2 ^ 32)] := by
    intro table level
    rw [places.mem_iff, laden.levels, Placement.mem_tablesAt]
  have wrappedIff : ∀ (table : SsTable fmt) (level : Nat), (table, level) ∈ placed.wrapped ↔
      (table = newer ∧ level = depth) ∨ (table = older ∧ level = 0) := by
    intro table level
    constructor
    · intro member
      obtain ⟨⟨original, place⟩, isOriginal, same⟩ := List.mem_map.mp member
      obtain ⟨rfl, rfl⟩ := Prod.mk.inj same
      rcases List.mem_cons.mp ((placedIff _ _).mp isOriginal) with first | second
      · obtain ⟨rfl, rfl⟩ := Prod.mk.inj first
        exact .inl ⟨rfl, Nat.mod_eq_of_lt short⟩
      · obtain ⟨rfl, rfl⟩ := Prod.mk.inj (List.mem_singleton.mp second)
        exact .inr ⟨rfl, Nat.mod_self _⟩
    · rintro (⟨rfl, rfl⟩ | ⟨rfl, rfl⟩)
      · exact List.mem_map.mpr ⟨(table, level), (placedIff _ _).mpr List.mem_cons_self,
          congrArg (Prod.mk table) (Nat.mod_eq_of_lt short)⟩
      · exact List.mem_map.mpr ⟨(table, 2 ^ 32), (placedIff _ _).mpr
          (List.mem_cons_of_mem _ (List.mem_singleton_self _)),
          congrArg (Prod.mk table) (Nat.mod_self _)⟩
  have inVersion : ∀ table ∈ (rebuilt options.maxLevels placed.wrapped).tablesNewestFirst,
      table ∈ db.engine.version.tablesNewestFirst := by
    intro table member
    obtain ⟨level, isPlaced⟩ := (mem_tables_rebuilt recordable).mp member
    obtain ⟨original, isOriginal, same⟩ := List.mem_map.mp isPlaced
    have sameTable : original.1 = table := congrArg Prod.fst same
    rw [← sameTable]
    exact places.mem_tables isOriginal
  refine ⟨rebuilt options.maxLevels placed.wrapped, ?_, inVersion,
    (rebuilt options.maxLevels placed.wrapped).level 0,
    ((rebuilt options.maxLevels placed.wrapped).levels.drop 1).flatten, ?_, ?_, ?_, ?_⟩
  · have sameOptions := laden.options_eq
    subst sameOptions
    exact opened
  · have split := @Version.tables_split fmt (rebuilt options.maxLevels placed.wrapped) 0
      (by rw [length_levels_rebuilt]; omega)
    simpa [Version.front, Version.seat, Version.back] using split
  · intro empty
    have member : older ∈ (rebuilt options.maxLevels placed.wrapped).level 0 :=
      (level_rebuilt_perm recordable 0).mem_iff.mpr (Placement.mem_tablesAt.mpr
        ((wrappedIff older 0).mpr (.inr ⟨rfl, rfl⟩)))
    rw [empty] at member
    cases member
  · intro table member
    have isPlaced := Placement.mem_tablesAt.mp ((level_rebuilt_perm recordable 0).mem_iff.mp member)
    rcases (wrappedIff table 0).mp isPlaced with ⟨_, isDepth⟩ | ⟨same, _⟩
    · omega
    · exact same
  · have member : newer ∈ (rebuilt options.maxLevels placed.wrapped).level depth :=
      (level_rebuilt_perm recordable depth).mem_iff.mpr (Placement.mem_tablesAt.mpr
        ((wrappedIff newer depth).mpr (.inl ⟨rfl, rfl⟩)))
    obtain ⟨depth, rfl⟩ : ∃ less, depth = less + 1 := ⟨depth - 1, by omega⟩
    have inside : depth + 1 < (rebuilt options.maxLevels placed.wrapped).levels.length := by
      by_contra outside
      rw [Version.level_of_le (not_lt.mp outside)] at member
      cases member
    have here : (rebuilt options.maxLevels placed.wrapped).level (depth + 1) ∈
        (rebuilt options.maxLevels placed.wrapped).levels.drop 1 := by
      rw [Version.level, List.getElem?_eq_getElem inside, Option.getD_some]
      exact List.mem_drop_iff_getElem.mpr ⟨depth, by omega, by simp [Nat.add_comm]⟩
    exact List.mem_flatten.mpr ⟨_, here, member⟩

end Stale

/-- Tables that start with the older one are looked up as the older one says. -/
theorem lookupIn_stale {content : SsTable fmt → List (Key × Entry)} {older : SsTable fmt}
    {top deeper : List (SsTable fmt)} {key old : Bytes} (nonempty : top ≠ [])
    (allOlder : ∀ table ∈ top, table = older) (entries : content older = [(key, .value old)]) :
    lookupIn content (top ++ deeper) key = some (.value old) := by
  obtain ⟨first, rest, rfl⟩ := List.exists_cons_of_ne_nil nonempty
  have found : entryIn content key first = some (.value old) := by
    rw [allOlder first List.mem_cons_self, entryIn, entries, valueAt, if_pos rfl]
  rw [lookupIn, List.cons_append, List.findSome?_cons, found]

/-- The run followed by a reopening: the older value is read first. -/
theorem wrapRun_reopens {options : Options} {key old new : Bytes} (sound : fmt.Sound Fits)
    (setting : WrapSetting fmt Fits options key old new) :
    ∃ db drained older newer version,
      executeAll (wrapRun (2 ^ 32) key old new) (Db.new fmt options) = .ok db ∧
      shutdown db = .ok () drained ∧ Consistent sound drained ∧
      execute .reopen db =
        .ok { drained with
          engine := Engine.opened options drained.engine.manifest version MemTable.new } ∧
      (∀ table ∈ version.tablesNewestFirst, table ∈ drained.engine.version.tablesNewestFirst) ∧
      entriesOn drained.disk.sst older = [(key, .value old)] ∧
      entriesOn drained.disk.sst newer = [(key, .value new)] ∧
      ∃ top deeper, version.tablesNewestFirst = top ++ deeper ∧ top ≠ [] ∧
        (∀ table ∈ top, table = older) ∧ newer ∈ deeper := by
  obtain ⟨db, older, newer, executed, laden, different, oldEntries, newEntries, memtable, inbox,
    running, nextId⟩ := wrapRun_laden sound setting
  have levels := setting.sinking.levels
  have wide : (2 : Nat) ^ 32 + 6 ≤ u64Max := by decide
  obtain ⟨drained, newer', isDrained, laden', newEntries', oldEntries', memtable'⟩ := laden.drain
    setting.sinking 2
    (by
      intro item member
      rw [List.mem_singleton.mp member]
      exact ⟨show 1 + 2 < 2 ^ 32 by decide, different⟩)
    (by omega) setting.newHeavy setting.newFits setting.newCreated newEntries (by omega)
    (by omega) running
  have closed : shutdown db = .ok () drained := by
    change drain db.engine.inbox db = _
    rw [inbox]
    exact isDrained
  obtain ⟨version, opened, inVersion, tops⟩ := laden'.wraps setting.sinking (by omega) (by decide)
  rw [memtable', memtable] at opened
  refine ⟨db, drained, _, _, version, executed, closed, laden'.consistent, execute_of_ok ?_,
    inVersion, (oldEntries' _ (List.mem_singleton_self _)).trans oldEntries, newEntries', tops⟩
  refine bind_eq_ok.mpr ⟨(), drained, closed, bind_eq_ok.mpr ⟨drained, drained, rfl, ?_⟩⟩
  rw [laden'.options_eq, opened]
  rfl

/-! ## An instance -/

/-- Options with more levels than 32 bits can number. -/
def wideOptions : Options where
  memtableSizeBytes := 10
  l0CompactionTrigger := 1
  levelSizeMultiplier := 1
  maxLevels := 2 ^ 32 + 2
  bloomFalsePositiveRate := 0.01
  blockSize := 64
  cacheSizeBytes := 64

theorem wideOptions_sinking : Sinking wideOptions := ⟨rfl, rfl, rfl⟩

theorem accepted_wideOld : (Command.put [1] [10]).operation = some (.put [1] [10]) := rfl

theorem accepted_wideNew : (Command.put [1] [20]).operation = some (.put [1] [20]) := rfl

theorem small_wideOld : ([1] : Bytes).length + ([10] : Bytes).length <
    wideOptions.memtableSizeBytes := by decide

theorem small_wideNew : ([1] : Bytes).length + ([20] : Bytes).length <
    wideOptions.memtableSizeBytes := by decide

end LsmStore
