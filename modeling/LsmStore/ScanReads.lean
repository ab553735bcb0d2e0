import LsmStore.ScanMerge

/-!
# Scans and reads agree

The two read paths of the engine are compared over every state that consists of
a memtable, an optional frozen memtable and tables that were created from
storable entries (`Scannable`).  A source of a scan offers the entries of its
layer within the bounds, as far as the blocks of the layer can be read; a key
within the bounds is then within the reach of a lookup too, and the lookup finds
the same entry.  So draining a scan yields exactly the pairs within the bounds
that reads return (`scan_agrees_with_get`).
-/

set_option autoImplicit false

namespace LsmStore

open Foundation

/-! ## Bounds -/

section Bounds

variable {start stop : Bound} {key later : Key}

/-- A key within the bounds lies in front of every key past the end. -/
theorem lt_of_pastEnd (inside : inRange key start stop = true)
    (past : pastEnd later stop = true) : key < later := by
  have beforeEnd := (Bool.and_eq_true_iff.mp inside).2
  cases stop with
  | unbounded => cases past
  | included bound =>
      exact lt_of_le_of_lt (of_decide_eq_true beforeEnd) (of_decide_eq_true past)
  | excluded bound =>
      exact lt_of_lt_of_le (of_decide_eq_true beforeEnd) (of_decide_eq_true past)

/-- The entries of a run within the bounds. -/
def within (start stop : Bound) (run : List (Key × Entry)) : List (Key × Entry) :=
  run.filter fun pair => inRange pair.1 start stop

theorem within_cons (head : Key × Entry) (rest : List (Key × Entry)) :
    within start stop (head :: rest) =
      if inRange head.1 start stop then head :: within start stop rest
      else within start stop rest :=
  List.filter_cons

theorem valueAt_within {run : List (Key × Entry)} (sorted : KeySorted run) (key : Key) :
    valueAt (within start stop run) key =
      if inRange key start stop then valueAt run key else none := by
  rw [within, sorted.valueAt_filter]
  cases valueAt run key with
  | none => split <;> rfl
  | some entry => rfl

/-- The window of a sorted run that may end with a failed read: what lies behind an
entry past the end is never read. -/
theorem window_append {run : List (Key × Entry)} (sorted : KeySorted run)
    (ending : List (Except Error (Key × Entry))) :
    window start stop (run.map .ok ++ ending) = (within start stop run).map .ok ++
      if run.any fun pair => pastEnd pair.1 stop then [] else window start stop ending := by
  induction run with
  | nil => rfl
  | cons head rest ih =>
      rw [List.map_cons, List.cons_append, window, ih sorted.tail, within_cons, List.any_cons]
      by_cases inside : inRange head.1 start stop = true
      · have notPast : pastEnd head.1 stop = false := by
          by_contra past
          exact lt_irrefl _ (lt_of_pastEnd inside (Bool.not_eq_false _ ▸ past))
        simp only [inside, notPast, if_true, Bool.false_or, List.map_cons, List.cons_append]
      · by_cases past : pastEnd head.1 stop = true
        · have none : within start stop rest = [] := by
            refine List.filter_eq_nil_iff.mpr fun pair member inRest => ?_
            exact lt_asymm (sorted.head_lt member) (lt_of_pastEnd inRest past)
          simp only [inside, past, none, if_false, if_true, Bool.true_or, List.map_nil,
            List.nil_append, Bool.false_eq_true]
        · simp only [inside, past, if_false, Bool.false_or, Bool.false_eq_true]

theorem map_ok_injective :
    Function.Injective (List.map (Except.ok : Key × Entry → Except Error (Key × Entry))) :=
  List.map_injective_iff.mpr fun _ _ => Except.ok.inj

/-- A window without a failed read holds the entries within the bounds, and it ended
with the entries or in front of one past the end. -/
theorem eq_within_of_window {run found : List (Key × Entry)} (sorted : KeySorted run)
    {ending : List (Except Error (Key × Entry))}
    (ended : ending = [] ∨ ∃ cause, ending = [.error cause])
    (isWindow : window start stop (run.map .ok ++ ending) = found.map .ok) :
    found = within start stop run ∧
      (ending = [] ∨ ∃ pair ∈ run, pastEnd pair.1 stop = true) := by
  rw [window_append sorted] at isWindow
  split at isWindow
  · rename_i past
    rw [List.append_nil] at isWindow
    exact ⟨(map_ok_injective isWindow).symm, .inr (List.any_eq_true.mp past)⟩
  · rcases ended with rfl | ⟨cause, rfl⟩
    · rw [window, List.append_nil] at isWindow
      exact ⟨(map_ok_injective isWindow).symm, .inl rfl⟩
    · have failed : Except.error cause ∈ found.map Except.ok := by
        rw [← isWindow]
        exact List.mem_append_right _ List.mem_cons_self
      obtain ⟨_, _, impossible⟩ := List.mem_map.mp failed
      cases impossible

end Bounds

/-! ## What the sources offer -/

section Sources

open PeekSource

variable {sizing : BloomSizing} {files : UInt64 → Option Bytes} {start stop : Bound}

theorem offers_fromMem (memtable : MemTable) :
    Offers files start stop (fromMem memtable start stop) (within start stop memtable.iter) := by
  rw [Offers, fromMem, PeekSource.pending, within]
  cases memtable.iter.filter fun pair => inRange pair.1 start stop <;> rfl

/-- A source only offers what it has pending. -/
theorem offers_unique {source : PeekSource} {left right : List (Key × Entry)}
    (offersLeft : Offers files start stop source left)
    (offersRight : Offers files start stop source right) : left = right :=
  map_ok_injective (offersLeft.symm.trans offersRight)

/-- The source of a table has the window of the table's items to offer. -/
def Opened (files : UInt64 → Option Bytes) (start stop : Bound)
    (table : SsTable (byteTables sizing)) (source : PeekSource) : Prop :=
  ∃ iterator, TableIterator.new table.handle (files table.id) = .ok iterator ∧
    source.pending files start stop = window start stop (iterator.items (files table.id))

theorem pending_fromTable {id : UInt64} {iterator : TableIterator} {source : PeekSource}
    (isSource : fromTable id (files id) iterator start stop = .ok source) :
    source.pending files start stop = window start stop (iterator.items (files id)) := by
  rw [fromTable, nextInRange] at isSource
  rcases nextInRangeLoop_cases (Nat.lt_succ_self (iterator.items (files id)).length) with
    ⟨iterator', moved, items⟩ | ⟨cause, iterator', moved, items⟩ | ⟨pair, iterator', moved, items⟩
  · rw [moved] at isSource
    cases isSource
    rw [items, PeekSource.pending]
  · rw [moved] at isSource
    cases isSource
  · rw [moved] at isSource
    cases isSource
    rw [items, PeekSource.pending, SourceRest.pending]

/-- A window without a failed read lets the source be opened. -/
theorem exists_fromTable {id : UInt64} {iterator : TableIterator} {run : List (Key × Entry)}
    (isWindow : window start stop (iterator.items (files id)) = run.map .ok) :
    ∃ source, fromTable id (files id) iterator start stop = .ok source ∧
      Offers files start stop source run := by
  have opens : ∃ source, fromTable id (files id) iterator start stop = .ok source := by
    rw [fromTable, nextInRange]
    rcases nextInRangeLoop_cases (Nat.lt_succ_self (iterator.items (files id)).length) with
      ⟨iterator', moved, _⟩ | ⟨cause, iterator', moved, failed⟩ | ⟨pair, iterator', moved, _⟩
    · rw [moved]
      exact ⟨_, rfl⟩
    · rw [failed] at isWindow
      cases run with
      | nil => cases isWindow
      | cons head rest => cases rest <;> cases isWindow
    · rw [moved]
      exact ⟨_, rfl⟩
  obtain ⟨source, isSource⟩ := opens
  exact ⟨source, isSource, (pending_fromTable isSource).trans isWindow⟩

theorem opened_of_openSources {tables : List (SsTable (byteTables sizing))}
    {sources : List PeekSource} (ran : openSources files start stop tables = .ok sources) :
    List.Forall₂ (Opened files start stop) tables sources := by
  induction tables generalizing sources with
  | nil =>
      cases ran
      exact .nil
  | cons table rest ih =>
      rw [openSources] at ran
      cases isNew : TableIterator.new table.handle (files table.id) with
      | error cause => rw [isNew] at ran; cases ran
      | ok iterator =>
          rw [isNew] at ran
          cases isSource : fromTable table.id (files table.id) iterator start stop with
          | error cause => simp only [isSource] at ran; cases ran
          | ok source =>
              cases later : openSources files start stop rest with
              | error cause => simp only [isSource, later] at ran; cases ran
              | ok sources' =>
                  simp only [isSource, later] at ran
                  cases ran
                  exact .cons ⟨iterator, isNew, pending_fromTable isSource⟩ (ih later)

end Sources

/-! ## States that can be scanned -/

section States

variable {sizing : BloomSizing}

/-- The table was created from strictly increasing keys and entries that the engine
can store, with some filter parameters and block size, and its file is in place. -/
def CreatedTable (files : UInt64 → Option Bytes) (table : SsTable (byteTables sizing)) : Prop :=
  ∃ entries bloomFp blockSize file, KeySorted entries ∧
    (∀ pair ∈ entries, validateKey pair.1 = .ok () ∧ pair.2.valueLen ≤ maxValueSize) ∧
    TableHandle.create sizing entries bloomFp blockSize = .ok (file, table.handle) ∧
    files table.id = some file

/-- A block that is cached for one of the tables is a block of it, as it is in the
file; blocks of other tables do not matter. -/
def BlockOf (files : UInt64 → Option Bytes) (tables : List (SsTable (byteTables sizing)))
    (key : BlockKey) (block : BlockData) : Prop :=
  ∀ table ∈ tables, table.id = key.tableId → ∃ row ∈ TableHandle.index table.handle,
    row.offset = key.offset ∧ readBlock (files table.id) row = .ok block

/-- An engine state made of a memtable, an optional frozen memtable and created
tables, in any levels; what the block cache holds for the tables are their blocks. -/
structure Scannable (db : Db (byteTables sizing)) : Prop where
  memtable : ∀ pair ∈ db.engine.memtable.iter, validateKey pair.1 = .ok ()
  immutable : ∀ frozen ∈ db.engine.immutable, ∀ pair ∈ frozen.iter, validateKey pair.1 = .ok ()
  created : ∀ table ∈ db.engine.version.tablesNewestFirst, CreatedTable db.disk.sst table
  distinct : (db.engine.version.tablesNewestFirst.map (·.id)).Nodup
  cached : db.engine.cache.Keeps (BlockOf db.disk.sst db.engine.version.tablesNewestFirst)

theorem length_le_of_validateKey {key : Key} (valid : validateKey key = .ok ()) :
    key ≠ [] ∧ key.length ≤ maxKeySize := by
  rw [validateKey] at valid
  split_ifs at valid with empty long
  exact ⟨empty, not_lt.mp long⟩

/-- How far a created table can be read. -/
theorem CreatedTable.exists_readable {files : UInt64 → Option Bytes}
    {table : SsTable (byteTables sizing)} (created : CreatedTable files table) :
    ∃ file good bad, files table.id = some file ∧ Readable table.handle file good bad ∧
      ∀ pair ∈ good.flatten, validateKey pair.1 = .ok () := by
  obtain ⟨entries, bloomFp, blockSize, file, sorted, stored, isTable, present⟩ := created
  have valid : ValidRun entries :=
    ⟨sorted, fun pair member => (length_le_of_validateKey (stored pair member).1).1⟩
  have sizes : StoredSizes entries := fun pair member =>
    ⟨(length_le_of_validateKey (stored pair member).1).2, (stored pair member).2⟩
  obtain ⟨good, bad, flat, readable, _⟩ := readable_of_create valid sizes isTable
  refine ⟨file, good, bad, present, readable, fun pair member => ?_⟩
  have inside : pair ∈ entries := by
    rw [← flat, List.flatten_append]
    exact List.mem_append_left _ member
  exact (stored pair inside).1

/-- Tables of one list are told apart by their ids. -/
theorem table_eq_of_id_eq {tables : List (SsTable (byteTables sizing))}
    (distinct : (tables.map (·.id)).Nodup) {table other : SsTable (byteTables sizing)}
    (member : table ∈ tables) (otherMember : other ∈ tables) (same : other.id = table.id) :
    other = table :=
  List.inj_on_of_nodup_map distinct otherMember member same

/-- A table answers a lookup of a key as far as it can be read. -/
theorem Readable.answers {files : UInt64 → Option Bytes}
    {tables : List (SsTable (byteTables sizing))} (distinct : (tables.map (·.id)).Nodup)
    {table : SsTable (byteTables sizing)} (member : table ∈ tables) {file : Bytes}
    (present : files table.id = some file) {good bad : List BlockData}
    (readable : Readable table.handle file good bad) {key : Key}
    (reach : bad = [] ∨ ∃ pair ∈ good.flatten, key ≤ pair.1) :
    @Answers (byteTables sizing) (fun cache => BlockCache.Keeps (BlockOf files tables) cache) files
      key table (valueAt good.flatten key) := by
  refine ⟨fun found => ?_, fun {cache} kept => ?_⟩
  · rw [← readable.valueAt_eq reach] at found
    exact readable.rows.not_skipped found
  · have cached : ∀ row ∈ TableHandle.index table.handle, ∀ block,
        BlockOf files tables ⟨table.id, row.offset⟩ block ↔
          ∃ other ∈ TableHandle.index table.handle, other.offset = row.offset ∧
            readBlock (some file) other = .ok block := by
      intro row inIndex block
      constructor
      · intro isBlock
        obtain ⟨other, inOther, offset, read⟩ := isBlock table member rfl
        exact ⟨other, inOther, offset, present ▸ read⟩
      · rintro ⟨otherRow, inOther, offset, read⟩ other isTable sameId
        obtain rfl := table_eq_of_id_eq distinct member isTable sameId
        exact ⟨otherRow, inOther, offset, present.symm ▸ read⟩
    have keeps : CacheKeeps (BlockOf files tables) (some cache) := by
      rintro _ ⟨⟩
      exact kept
    obtain ⟨after, found, still, some_⟩ := readable.get_eq reach cached keeps
    obtain ⟨resident, rfl⟩ := Option.isSome_iff_exists.mp some_
    refine ⟨resident, ?_, still resident rfl⟩
    rw [present]
    simp only [byteTables, found]
    rfl

/-! ## The layers of a scan -/

open PeekSource

variable {files : UInt64 → Option Bytes} {start stop : Bound}

/-- What a layer contributes to a scan: sorted entries under valid keys within the bounds. -/
structure LayerRun (start stop : Bound) (run : List (Key × Entry)) : Prop where
  sorted : KeySorted run
  keys : ∀ pair ∈ run, validateKey pair.1 = .ok () ∧ inRange pair.1 start stop = true

theorem layerRun_within {run : List (Key × Entry)} (sorted : KeySorted run)
    (valid : ∀ pair ∈ run, validateKey pair.1 = .ok ()) :
    LayerRun start stop (within start stop run) := by
  refine ⟨sorted.filter _, fun pair member => ?_⟩
  obtain ⟨inRun, inside⟩ := List.mem_filter.mp member
  exact ⟨valid pair inRun, inside⟩

/-- An opened table that can be read as far as the scan goes: within the bounds,
lookups find what its source offers. -/
theorem Opened.answers {tables : List (SsTable (byteTables sizing))}
    (distinct : (tables.map (·.id)).Nodup) {table : SsTable (byteTables sizing)}
    (member : table ∈ tables) (created : CreatedTable files table) {source : PeekSource}
    (opened : Opened files start stop table source) {run : List (Key × Entry)}
    (offers : Offers files start stop source run) :
    LayerRun start stop run ∧ ∀ key, inRange key start stop = true →
      @Answers (byteTables sizing) (fun cache => BlockCache.Keeps (BlockOf files tables) cache)
        files key table (valueAt run key) := by
  obtain ⟨file, good, bad, present, readable, valid⟩ := created.exists_readable
  obtain ⟨iterator, isNew, pending⟩ := opened
  rw [present] at isNew pending
  obtain ⟨ending, items, ended⟩ := readable.items_eq isNew
  have sorted : KeySorted good.flatten := by
    have whole := readable.rows.valid.sorted
    rw [List.flatten_append] at whole
    exact (List.pairwise_append.mp whole).1
  rw [items] at pending
  obtain ⟨rfl, stopped⟩ := eq_within_of_window sorted (ended.imp And.left id)
    (pending.symm.trans offers)
  refine ⟨layerRun_within sorted valid, fun key inside => ?_⟩
  rw [valueAt_within sorted, if_pos inside]
  refine readable.answers distinct member present ?_
  rcases stopped with finished | ⟨pair, inGood, past⟩
  · rcases ended with ⟨_, all⟩ | ⟨cause, failed⟩
    · exact .inl all
    · rw [finished] at failed
      cases failed
  · exact .inr ⟨pair, inGood, le_of_lt (lt_of_pastEnd inside past)⟩

/-- Opened tables answer with what their sources offer. -/
theorem answers_of_opened {version tables : List (SsTable (byteTables sizing))}
    (distinct : (version.map (·.id)).Nodup)
    (created : ∀ table ∈ tables, table ∈ version ∧ CreatedTable files table)
    {sources : List PeekSource} (opened : List.Forall₂ (Opened files start stop) tables sources)
    {runs : List (List (Key × Entry))}
    (offers : List.Forall₂ (Offers files start stop) sources runs) :
    (∀ run ∈ runs, LayerRun start stop run) ∧
      ∀ key, inRange key start stop = true →
        List.Forall₂ (@Answers (byteTables sizing)
          (fun cache => BlockCache.Keeps (BlockOf files version) cache) files key)
          tables (runs.map (valueAt · key)) := by
  induction opened generalizing runs with
  | nil =>
      cases offers
      exact ⟨nofun, fun _ _ => .nil⟩
  | @cons table source tables sources isOpen _ ih =>
      obtain ⟨run, later, offered, restOffers, rfl⟩ := List.forall₂_cons_left_iff.mp offers
      obtain ⟨member, isTable⟩ := created table List.mem_cons_self
      obtain ⟨layer, answers⟩ := isOpen.answers distinct member isTable offered
      obtain ⟨layers, restAnswers⟩ :=
        ih (fun other inRest => created other (List.mem_cons_of_mem _ inRest)) restOffers
      exact ⟨List.forall_mem_cons.mpr ⟨layer, layers⟩,
        fun key inside => .cons (answers key inside) (restAnswers key inside)⟩

/-- The memtables of an iterator offer their entries within the bounds. -/
theorem runs_of_memtables {memtables : List MemTable} {sources : List PeekSource}
    {runs : List (List (Key × Entry))}
    (offers : List.Forall₂ (Offers files start stop)
      (memtables.map (fromMem · start stop) ++ sources) runs) :
    ∃ tableRuns, runs = memtables.map (fun memtable => within start stop memtable.iter) ++ tableRuns ∧
      List.Forall₂ (Offers files start stop) sources tableRuns := by
  induction memtables generalizing runs with
  | nil => exact ⟨runs, rfl, offers⟩
  | cons memtable rest ih =>
      obtain ⟨run, later, offered, restOffers, rfl⟩ := List.forall₂_cons_left_iff.mp offers
      obtain rfl := offers_unique offered (offers_fromMem memtable)
      obtain ⟨tableRuns, rfl, offersTables⟩ := ih restOffers
      exact ⟨tableRuns, rfl, offersTables⟩

theorem newestAt_append (front back : List (List (Key × Entry))) (key : Key) :
    newestAt (front ++ back) key = (newestAt front key).or (newestAt back key) :=
  List.findSome?_append

/-- Within the bounds, the memtables of an iterator hold what they hold for a read. -/
theorem newestAt_memtables {key : Key} (inside : inRange key start stop = true)
    (memtable : MemTable) (immutable : Option MemTable) :
    newestAt ((memtable :: immutable.toList).map fun memtable =>
        within start stop memtable.iter) key =
      (memtable.get key).or (immutable.bind (·.get key)) := by
  have each : ∀ memtable : MemTable,
      valueAt (within start stop memtable.iter) key = memtable.get key := by
    intro memtable
    rw [valueAt_within memtable.iter_sorted, if_pos inside, memtable.valueAt_iter]
  rw [newestAt, List.findSome?_map, List.findSome?_cons, Function.comp_apply, each]
  cases memtable.get key with
  | some entry => rfl
  | none =>
      rw [Option.none_or]
      cases immutable with
      | none => rfl
      | some frozen =>
          rw [Option.toList_some, List.findSome?_cons, Function.comp_apply, each]
          cases isEntry : frozen.get key <;> simp [isEntry]

/-- The layers of a scan: every run is within the bounds, and for a key within the
bounds the newest entry of the runs is what a read returns. -/
theorem layers_of_offers {db : Db (byteTables sizing)} (state : Scannable db)
    {sources : List PeekSource}
    (opened : List.Forall₂ (Opened db.disk.sst start stop) db.engine.version.tablesNewestFirst sources)
    {runs : List (List (Key × Entry))}
    (offers : List.Forall₂ (Offers db.disk.sst start stop)
      ((db.engine.memtable :: db.engine.immutable.toList).map (fromMem · start stop) ++ sources)
      runs) :
    (∀ run ∈ runs, LayerRun start stop run) ∧
      ∀ key, validateKey key = .ok () → inRange key start stop = true →
        db.eval (get key) = .ok (visible (newestAt runs key)) := by
  obtain ⟨tableRuns, rfl, offersTables⟩ := runs_of_memtables offers
  obtain ⟨tableLayers, answers⟩ := answers_of_opened state.distinct
    (fun table member => ⟨member, state.created table member⟩) opened offersTables
  constructor
  · intro run member
    rcases List.mem_append.mp member with inMemory | inTables
    · obtain ⟨memtable, isLayer, rfl⟩ := List.mem_map.mp inMemory
      refine layerRun_within memtable.iter_sorted ?_
      rcases List.mem_cons.mp isLayer with rfl | isFrozen
      · exact state.memtable
      · exact state.immutable memtable (Option.mem_toList.mp isFrozen)
    · exact tableLayers run inTables
  · intro key valid inside
    obtain ⟨cache, skips, reads, searched, _⟩ :=
      searchTables_of_answers (answers key inside) state.cached
    have tables : db.eval (getFromTables key) = .ok (visible (newestAt tableRuns key)) := by
      rw [Db.eval, getFromTables, searched, List.findSome?_map, Function.id_comp, newestAt]
    rw [eval_get_of_tables tables valid, newestAt_append, newestAt_memtables inside,
      Option.or_assoc]

end States

/-! ## Scans and reads -/

section Agreement

open PeekSource

variable {sizing : BloomSizing} {db after : Db (byteTables sizing)} {start stop : Bound}
  {iterator : EngineIterator}

theorem opened_of_scan (opened : scan start stop db = .ok iterator after) :
    iterator.start = start ∧ iterator.stop = stop ∧ ∃ sources,
      iterator.sources = (db.engine.memtable :: db.engine.immutable.toList).map
        (fromMem · start stop) ++ sources ∧
      List.Forall₂ (Opened db.disk.sst start stop) db.engine.version.tablesNewestFirst sources := by
  cases ran : openSources db.disk.sst start stop db.engine.version.tablesNewestFirst with
  | error cause =>
      simp only [scan, EngineIterator.new, ran] at opened
      cases opened
  | ok sources =>
      simp only [scan, EngineIterator.new, ran] at opened
      cases opened
      exact ⟨rfl, rfl, sources, rfl, opened_of_openSources ran⟩

theorem drains_unique {files : UInt64 → Option Bytes} {left right : List (Key × Bytes)}
    (drainsLeft : iterator.Drains files left) (drainsRight : iterator.Drains files right) :
    left = right := by
  induction left generalizing right iterator with
  | nil =>
      cases right with
      | nil => rfl
      | cons pair rest =>
          have yielded := drainsRight.1
          rw [EngineIterator.Drains] at drainsLeft
          rw [drainsLeft] at yielded
          cases yielded
  | cons pair rest ih =>
      cases right with
      | nil =>
          have finished := drainsLeft.1
          rw [EngineIterator.Drains] at drainsRight
          rw [drainsRight] at finished
          cases finished
      | cons other later =>
          have same := drainsLeft.1.symm.trans drainsRight.1
          cases same
          rw [ih drainsLeft.2 drainsRight.2]

/-- Every block of every table can be read. -/
def AllRead (files : UInt64 → Option Bytes) (tables : List (SsTable (byteTables sizing))) : Prop :=
  ∀ table ∈ tables, ∀ row ∈ TableHandle.index table.handle,
    ∃ block, readBlock (files table.id) row = .ok block

/-- The blocks of held tables can be read. -/
theorem allRead_of_held {files : UInt64 → Option Bytes}
    {tables : List (SsTable (byteTables sizing))}
    (held : ∀ table ∈ tables, Held (byteTables_sound sizing) files table) :
    AllRead files tables := by
  intro table member row inIndex
  obtain ⟨file, present, parts, holds, isFile, isHandle⟩ := held table member
  rw [isHandle] at inIndex
  rw [present, isFile]
  obtain ⟨position, rfl⟩ := List.get_of_mem inIndex
  have inBlocks : position.val < parts.blocks.length := by
    rw [← holds.describes.length_eq]
    exact position.isLt
  exact ⟨_, (holds.describes.get position.isLt inBlocks).read_eq⟩

/-- A table all of whose blocks can be read is opened and offers its entries. -/
theorem exists_source {files : UInt64 → Option Bytes} {table : SsTable (byteTables sizing)}
    (created : CreatedTable files table)
    (read : ∀ row ∈ TableHandle.index table.handle,
      ∃ block, readBlock (files table.id) row = .ok block) :
    ∃ iterator source run, TableIterator.new table.handle (files table.id) = .ok iterator ∧
      fromTable table.id (files table.id) iterator start stop = .ok source ∧
      Offers files start stop source run := by
  obtain ⟨file, good, bad, present, readable, _⟩ := created.exists_readable
  rw [present] at read ⊢
  obtain ⟨front, back, isIndex, describes, after, _⟩ := readable.split
  rcases after with ⟨rfl, rfl⟩ | ⟨row, more, cause, rfl, failed⟩
  · obtain ⟨iterator, isNew⟩ := readable.exists_iterator
    have items : iterator.items (some file) = good.flatten.map .ok := by
      rw [TableIterator.items_new isNew, isIndex, unread_append_of_describes describes,
        TableIterator.unread, List.append_nil]
    have sorted : KeySorted good.flatten := by
      have whole := readable.rows.valid.sorted
      rwa [List.append_nil] at whole
    have isWindow : window start stop (iterator.items (some file)) =
        (within start stop good.flatten).map .ok := by
      rw [items, ← List.append_nil (good.flatten.map _), window_append sorted, window, ite_self,
        List.append_nil]
    obtain ⟨source, isSource, offers⟩ := exists_fromTable (present ▸ isWindow)
    exact ⟨iterator, source, _, isNew, present ▸ isSource, offers⟩
  · obtain ⟨block, isBlock⟩ := read row (by rw [isIndex]; simp)
    rw [failed] at isBlock
    cases isBlock

theorem openSources_of_reads {files : UInt64 → Option Bytes}
    {tables : List (SsTable (byteTables sizing))}
    (created : ∀ table ∈ tables, CreatedTable files table) (reads : AllRead files tables) :
    ∃ sources runs, openSources files start stop tables = .ok sources ∧
      List.Forall₂ (Offers files start stop) sources runs := by
  induction tables with
  | nil => exact ⟨[], [], rfl, .nil⟩
  | cons table rest ih =>
      obtain ⟨sources, runs, opened, offers⟩ :=
        ih (fun other member => created other (List.mem_cons_of_mem _ member))
          (fun other member => reads other (List.mem_cons_of_mem _ member))
      obtain ⟨iterator, source, run, isNew, isSource, offered⟩ :=
        exists_source (created table List.mem_cons_self) (reads table List.mem_cons_self)
      refine ⟨source :: sources, run :: runs, ?_, .cons offered offers⟩
      simp only [openSources, isNew, isSource, opened]

/-- Draining a scan yields exactly the pairs within the bounds that reads return. -/
theorem reads_of_drains (state : Scannable db) (opened : scan start stop db = .ok iterator after)
    {pairs : List (Key × Bytes)} (drained : iterator.Drains db.disk.sst pairs) :
    KeySorted pairs ∧ ∀ key value, (key, value) ∈ pairs ↔
      inRange key start stop = true ∧ db.eval (get key) = .ok (some value) := by
  obtain ⟨rfl, rfl, sources, isSources, tables⟩ := opened_of_scan opened
  obtain ⟨runs, offers⟩ := offers_of_drains drained
  rw [isSources] at offers
  obtain ⟨layers, reads⟩ := layers_of_offers state tables offers
  rw [← isSources] at offers
  obtain ⟨merged, drainsMerged, sorted, values⟩ :=
    drains_of_runs offers fun run member => (layers run member).sorted
  obtain rfl := drains_unique drained drainsMerged
  refine ⟨sorted, fun key value => ?_⟩
  rw [← sorted.valueAt_eq_some_iff, values]
  constructor
  · intro found
    have held : newestAt runs key = some (.value value) := by
      cases newest : newestAt runs key with
      | none => rw [newest] at found; cases found
      | some entry =>
          rw [newest] at found
          cases entry <;> cases found
          rfl
    obtain ⟨run, isRun, inRun⟩ := List.exists_of_findSome?_eq_some held
    obtain ⟨valid, inside⟩ := (layers run isRun).keys _ (mem_of_valueAt inRun)
    exact ⟨inside, by rw [reads key valid inside, found]⟩
  · rintro ⟨inside, got⟩
    have valid : validateKey key = .ok () := by
      cases checked : validateKey key with
      | ok done => rfl
      | error cause => simp only [Db.eval, get, checked] at got; cases got
    rw [reads key valid inside] at got
    exact Except.ok.inj got

/-- A scan of tables that can be read opens and is drained. -/
theorem exists_drains (state : Scannable db) (start stop : Bound)
    (allRead : AllRead db.disk.sst db.engine.version.tablesNewestFirst) :
    ∃ iterator pairs, scan start stop db = .ok iterator db ∧ iterator.Drains db.disk.sst pairs := by
  obtain ⟨sources, tableRuns, opened, offersTables⟩ : ∃ sources runs,
      openSources db.disk.sst start stop db.engine.version.tablesNewestFirst = .ok sources ∧
        List.Forall₂ (Offers db.disk.sst start stop) sources runs :=
    openSources_of_reads state.created allRead
  have isScan : scan start stop db = .ok ⟨(db.engine.memtable :: db.engine.immutable.toList).map
      (fromMem · start stop) ++ sources, start, stop⟩ db := by
    simp only [scan, EngineIterator.new, opened]
  have offers : List.Forall₂ (Offers db.disk.sst start stop)
      ((db.engine.memtable :: db.engine.immutable.toList).map (fromMem · start stop) ++ sources)
      ((db.engine.memtable :: db.engine.immutable.toList).map
        (fun memtable => within start stop memtable.iter) ++ tableRuns) :=
    List.rel_append (List.forall₂_map_left_iff.mpr (List.forall₂_map_right_iff.mpr
      (List.forall₂_same.mpr fun memtable _ => offers_fromMem memtable))) offersTables
  obtain ⟨layers, _⟩ := layers_of_offers state (opened_of_openSources opened) offers
  obtain ⟨pairs, drained, _⟩ :=
    @drains_of_runs db.disk.sst ⟨_, start, stop⟩ _ offers fun run member => (layers run member).sorted
  exact ⟨_, pairs, isScan, drained⟩

/-- **A scan agrees with reads.**  In every engine state made of a memtable, an
optional frozen memtable and created tables, and for all bounds, a scan that is
drained without a read error yields strictly increasing keys, and exactly the
pairs within the bounds that reads return.  If every block of the tables can be
read, the scan opens and is drained without an error. -/
theorem scan_agrees_with_get (sizing : BloomSizing) {db : Db (byteTables sizing)}
    (state : Scannable db) (start stop : Bound) :
    (∀ iterator after pairs, scan start stop db = .ok iterator after →
      iterator.Drains db.disk.sst pairs →
        KeySorted pairs ∧ ∀ key value, (key, value) ∈ pairs ↔
          inRange key start stop = true ∧ db.eval (get key) = .ok (some value)) ∧
    (AllRead db.disk.sst db.engine.version.tablesNewestFirst →
      ∃ iterator pairs, scan start stop db = .ok iterator db ∧
        iterator.Drains db.disk.sst pairs) :=
  ⟨fun _ _ _ opened drained => reads_of_drains state opened drained,
    exists_drains state start stop⟩

/-- A table of two data blocks. -/
def layeredEntries : List (Key × Entry) := [([97], .value [49]), ([98], .value [50])]

def layeredParts : TableParts := tableParts smallSizing layeredEntries 0.01 1

def layeredTable : SsTable (byteTables smallSizing) := ⟨1, layeredParts.handle⟩

/-- A key in the table, a deleted key of the table, and a key in the frozen memtable. -/
def layeredDb : Db (byteTables smallSizing) where
  disk := ⟨[], [], [], fun id => if id = 1 then some layeredParts.bytes else none⟩
  engine :=
    { Engine.opened tinyOptions .initial ⟨[[layeredTable]]⟩ (MemTable.new.delete [98]) with
      immutable := some (MemTable.new.put [99] [51]) }
  faults := []

theorem layeredDb_tables : layeredDb.engine.version.tablesNewestFirst = [layeredTable] := rfl

theorem layeredParts_holds : layeredParts.Holds layeredEntries :=
  tableParts_holds ⟨by decide, by decide⟩ (by decide +kernel) (by decide +kernel)
    (by decide +kernel) (by decide +kernel)

theorem layeredDb_scannable : Scannable layeredDb where
  memtable := by decide
  immutable := by
    rintro frozen ⟨⟩
    decide
  created := by
    rw [layeredDb_tables]
    rintro table ⟨⟩
    · exact ⟨layeredEntries, 0.01, 1, layeredParts.bytes, by decide, by decide,
        create_eq ⟨by decide, by decide⟩ (by decide +kernel) (by decide +kernel), rfl⟩
    · rename_i member
      cases member
  distinct := List.nodup_singleton _
  cached := BlockCache.keeps_new _ _

theorem layeredTable_held : ∀ table ∈ layeredDb.engine.version.tablesNewestFirst,
    Held (byteTables_sound smallSizing) layeredDb.disk.sst table := by
  intro table member
  rw [layeredDb_tables] at member
  rw [List.mem_singleton.mp member]
  exact Held.intro _ rfl ⟨layeredParts, layeredParts_holds, rfl, rfl⟩

theorem layeredDb_read : layeredDb.eval (get [97]) = .ok (some [49]) := by
  have entries : entriesOn layeredDb.disk.sst layeredTable = layeredEntries :=
    entriesOn_eq (byteTables_sound smallSizing) rfl ⟨layeredParts, layeredParts_holds, rfl, rfl⟩
  have coherent : (byteTables_sound smallSizing).Coherent layeredDb.disk.sst layeredDb.engine.cache :=
    BlockCache.keeps_new _ _
  rw [eval_get (byteTables_sound smallSizing) layeredTable_held coherent rfl, Db.reading,
    Db.tableLookup, layeredDb_tables, lookupIn, List.findSome?_cons, entryIn, entries]
  rfl

/-- A drained scan of the three layers: the table's value, not the deleted one. -/
theorem scan_agrees_with_get_layers :
    ∃ iterator pairs, scan (.included [97]) .unbounded layeredDb = .ok iterator layeredDb ∧
      iterator.Drains layeredDb.disk.sst pairs ∧ ([97], [49]) ∈ pairs ∧ ([99], [51]) ∈ pairs ∧
      ([98], [50]) ∉ pairs := by
  obtain ⟨agrees, opens⟩ :=
    scan_agrees_with_get smallSizing layeredDb_scannable (.included [97]) .unbounded
  obtain ⟨iterator, pairs, opened, drained⟩ := opens (allRead_of_held layeredTable_held)
  obtain ⟨_, exactly⟩ := agrees iterator layeredDb pairs opened drained
  refine ⟨iterator, pairs, opened, drained, ?_, ?_, ?_⟩
  · exact (exactly _ _).mpr ⟨by decide, layeredDb_read⟩
  · exact (exactly _ _).mpr ⟨by decide, rfl⟩
  · intro member
    have got := ((exactly _ _).mp member).2
    cases got

end Agreement

end LsmStore
