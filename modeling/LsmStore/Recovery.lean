import LsmStore.Pass

/-!
# Recovery

What opening a directory rebuilds.  The manifest lists tables with their levels
in the order in which they were added; opening the directory puts every listed
table into its level, turns level 0 around and sorts the deeper levels
(`openWith_of_placement`).

A listing places the tables of a version (`Places`) when level 0 is recorded
oldest first and every deeper level is recorded in some order.  Reopening such a
listing rearranges the deeper levels at most, which changes no lookup
(`Rearranged.lookupIn_eq`).  Flushes and compactions keep a listing that places
the version (`Places.pushFront`, `Places.install`).
-/

set_option autoImplicit false

namespace LsmStore

open Foundation

variable {fmt : TableFormat} {Fits : Options → List (Key × Entry) → Prop}

/-! ## Levels of a version -/

namespace Version

theorem level_of_le {version : Version fmt} {depth : Nat}
    (outside : version.levels.length ≤ depth) : version.level depth = [] := by
  unfold level
  rw [List.getElem?_eq_none outside, Option.getD_none]

theorem ext_level {version version' : Version fmt}
    (length : version.levels.length = version'.levels.length)
    (same : ∀ depth, version.level depth = version'.level depth) : version = version' := by
  obtain ⟨levels⟩ := version
  obtain ⟨levels'⟩ := version'
  congr 1
  refine List.ext_getElem length ?_
  intro depth inside inside'
  have here := same depth
  unfold level at here
  rwa [List.getElem?_eq_getElem inside, List.getElem?_eq_getElem inside'] at here

theorem level_withMaxLevels (fmt : TableFormat) (maxLevels depth : Nat) :
    (withMaxLevels fmt maxLevels).level depth = [] := by
  unfold level withMaxLevels
  rw [List.getElem?_replicate]
  split <;> rfl

theorem level_modify {version : Version fmt} {place : Nat} (inside : place < version.levels.length)
    (change : List (SsTable fmt) → List (SsTable fmt)) (depth : Nat) :
    level ⟨version.levels.modify place change⟩ depth =
      if depth = place then change (version.level depth) else version.level depth := by
  unfold level
  rw [List.getElem?_modify]
  by_cases here : depth = place
  · subst here
    rw [if_pos rfl, List.getElem?_eq_getElem inside]
    simp
  · rw [if_neg here]
    cases version.levels[depth]? with
    | none => rfl
    | some tables => simp [Ne.symm here]

theorem level_map_range (tables : Nat → List (SsTable fmt)) {count depth : Nat}
    (inside : depth < count) : level ⟨(List.range count).map tables⟩ depth = tables depth := by
  unfold level
  simp [inside]

theorem levels_eq (version : Version fmt) :
    version.levels = (List.range version.levels.length).map version.level := by
  refine List.ext_getElem (by simp) ?_
  intro depth inside _
  rw [List.getElem_map, List.getElem_range, level, List.getElem?_eq_getElem inside,
    Option.getD_some]

theorem tables_eq_flatMap (version : Version fmt) :
    version.tablesNewestFirst = (List.range version.levels.length).flatMap version.level := by
  rw [tablesNewestFirst_eq, levels_eq, List.flatMap_def, List.length_map, List.length_range]

end Version

/-! ## Placements -/

/-- Tables with the level each is placed in, oldest record first. -/
abbrev Placement (fmt : TableFormat) : Type := List (SsTable fmt × Nat)

namespace Placement

/-- The tables placed in a level, oldest record first. -/
def tablesAt (placed : Placement fmt) (depth : Nat) : List (SsTable fmt) :=
  (placed.filter fun item => item.2 == depth).map (·.1)

/-- How the manifest lists placed tables: the number of a level is cut to 32
bits. -/
def listing (placed : Placement fmt) : List (UInt64 × UInt32) :=
  placed.map fun item => (item.1.id, UInt32.ofNat item.2)

/-- Every table is placed in a level that exists and that the manifest can name. -/
def Recordable (placed : Placement fmt) (maxLevels : Nat) : Prop :=
  ∀ item ∈ placed, item.2 < maxLevels ∧ item.2 < 2 ^ 32

theorem mem_tablesAt {placed : Placement fmt} {depth : Nat} {table : SsTable fmt} :
    table ∈ placed.tablesAt depth ↔ (table, depth) ∈ placed := by
  simp [tablesAt]

theorem tablesAt_cons (item : SsTable fmt × Nat) (placed : Placement fmt) (depth : Nat) :
    tablesAt (item :: placed) depth =
      if depth = item.2 then item.1 :: placed.tablesAt depth else placed.tablesAt depth := by
  unfold tablesAt
  by_cases here : depth = item.2
  · rw [if_pos here, List.filter_cons_of_pos (by simp [here]), List.map_cons]
  · rw [if_neg here, List.filter_cons_of_neg (by simpa using Ne.symm here)]

theorem tablesAt_append (first second : Placement fmt) (depth : Nat) :
    tablesAt (first ++ second) depth = first.tablesAt depth ++ second.tablesAt depth := by
  simp [tablesAt]

theorem tablesAt_singleton (table : SsTable fmt) (place depth : Nat) :
    tablesAt [(table, place)] depth = if depth = place then [table] else [] :=
  tablesAt_cons (table, place) [] depth

theorem tablesAt_filter (placed : Placement fmt) (keep : SsTable fmt → Bool) (depth : Nat) :
    tablesAt (placed.filter fun item => keep item.1) depth =
      (placed.tablesAt depth).filter keep := by
  unfold tablesAt
  rw [List.filter_map, List.filter_filter, List.filter_filter]
  congr 1
  refine List.filter_congr ?_
  intro item _
  exact Bool.and_comm _ _

/-- A job's output recorded behind the others, and its inputs dropped. -/
theorem tablesAt_install (placed : Placement fmt) {job : CompactionJob fmt} {output : SsTable fmt}
    (fresh : job.takes output = false) (depth : Nat) :
    tablesAt ((placed ++ [(output, job.outputLevel)]).filter fun item => !job.takes item.1) depth =
      job.keeps (placed.tablesAt depth) ++ if depth = job.outputLevel then [output] else [] := by
  rw [tablesAt_filter _ (fun table => !job.takes table), tablesAt_append, tablesAt_singleton,
    List.filter_append]
  congr 1
  split
  · rw [List.filter_cons_of_pos (by simp [fresh]), List.filter_nil]
  · rfl

theorem mem_listing {placed : Placement fmt} {id : UInt64} :
    id ∈ placed.listing.map (·.1) ↔ ∃ item ∈ placed, item.1.id = id := by
  simp [listing]

end Placement

/-! ## Where the listed tables go -/

/-- The file of the table exists, and opening it gives the table. -/
def Opens (disk : Disk fmt) (table : SsTable fmt) : Prop :=
  ∃ file, disk.sst table.id = some file ∧ fmt.openFile file = .ok table.handle

theorem Held.opens {sound : fmt.Sound Fits} {disk : Disk fmt} {table : SsTable fmt}
    (held : Held sound disk.sst table) : Opens disk table := by
  obtain ⟨file, present, holds⟩ := held
  exact ⟨file, present, sound.openFile_ok holds⟩

/-- The level that opening puts a listed table into: a level that does not exist
becomes the last one. -/
def landing (maxLevels : Nat) (listed : UInt64 × UInt32) : UInt64 × Nat :=
  (listed.1, min listed.2.toNat (maxLevels - 1))

/-- The tables of the listing, placed in the levels that opening puts them into. -/
def Lands (maxLevels : Nat) (listed : List (UInt64 × UInt32)) (placed : Placement fmt) : Prop :=
  placed.map (fun item => (item.1.id, item.2)) = listed.map (landing maxLevels)

theorem lands_listing {placed : Placement fmt} {maxLevels : Nat}
    (recordable : placed.Recordable maxLevels) : Lands maxLevels placed.listing placed := by
  rw [Lands, Placement.listing, List.map_map]
  refine List.map_congr_left fun item member => ?_
  obtain ⟨inside, short⟩ := recordable item member
  have exact_ : (UInt32.ofNat item.2).toNat = item.2 := UInt32.toNat_ofNat_of_lt' short
  rw [Function.comp_apply, landing, exact_, min_eq_left (by omega)]

theorem Lands.inside {maxLevels : Nat} {listed : List (UInt64 × UInt32)} {placed : Placement fmt}
    (lands : Lands maxLevels listed placed) (positive : 1 ≤ maxLevels)
    {item : SsTable fmt × Nat} (member : item ∈ placed) : item.2 < maxLevels := by
  have listedToo : (item.1.id, item.2) ∈ listed.map (landing maxLevels) := by
    rw [← lands]
    exact List.mem_map.mpr ⟨item, member, rfl⟩
  obtain ⟨entry, _, same⟩ := List.mem_map.mp listedToo
  rw [← congrArg Prod.snd same, landing]
  dsimp only
  omega

theorem Lands.append {maxLevels : Nat} {listed : List (UInt64 × UInt32)} {placed : Placement fmt}
    (lands : Lands maxLevels listed placed) {table : SsTable fmt} {level : UInt32} {place : Nat}
    (here : min level.toNat (maxLevels - 1) = place) :
    Lands maxLevels (listed ++ [(table.id, level)]) (placed ++ [(table, place)]) := by
  rw [Lands, List.map_append, List.map_append, lands, List.map_singleton, List.map_singleton,
    landing, here]

/-- Tables of some ids are dropped from the listing. -/
theorem Lands.filter {maxLevels : Nat} {listed : List (UInt64 × UInt32)} {placed : Placement fmt}
    (lands : Lands maxLevels listed placed) (keep : UInt64 → Bool) :
    Lands maxLevels (listed.filter fun entry => keep entry.1)
      (placed.filter fun item => keep item.1.id) := by
  have kept := congrArg (List.filter fun place : UInt64 × Nat => keep place.1) lands
  rw [List.filter_map, List.filter_map] at kept
  exact kept

/-- **Opening the listed tables** appends each one to its level. -/
theorem loadTables_lands {disk : Disk fmt} {maxLevels : Nat}
    {listed : List (UInt64 × UInt32)} {placed : Placement fmt}
    (lands : Lands maxLevels listed placed) (inside : ∀ item ∈ placed, item.2 < maxLevels)
    (opens : ∀ item ∈ placed, Opens disk item.1)
    {version : Version fmt} (depth : version.levels.length = maxLevels) :
    ∃ version', loadTables disk maxLevels listed version = .ok version' ∧
      version'.levels.length = maxLevels ∧
      ∀ depth, version'.level depth = version.level depth ++ placed.tablesAt depth := by
  induction listed generalizing placed version with
  | nil =>
      obtain rfl : placed = [] := List.map_eq_nil_iff.mp lands
      exact ⟨version, rfl, depth, fun _ => (List.append_nil _).symm⟩
  | cons first rest ih =>
      obtain ⟨id, level⟩ := first
      obtain ⟨item, later, rfl, same, lands'⟩ := List.map_eq_cons_iff.mp lands
      obtain ⟨table, place⟩ := item
      have isId : id = table.id := (congrArg Prod.fst same).symm
      have isPlace : min level.toNat (maxLevels - 1) = place := (congrArg Prod.snd same).symm
      obtain ⟨file, present, opened⟩ := opens _ List.mem_cons_self
      have here : place < version.levels.length := depth ▸ inside _ List.mem_cons_self
      obtain ⟨version', loaded, length, levels⟩ :=
        @ih later lands' (fun item member => inside item (List.mem_cons_of_mem _ member))
          (fun item member => opens item (List.mem_cons_of_mem _ member))
          ⟨version.levels.modify place (· ++ [table])⟩ (by simpa using depth)
      refine ⟨version', ?_, length, ?_⟩
      · rw [loadTables, isId, present]
        dsimp only
        rw [opened]
        dsimp only
        rw [isPlace, if_pos here]
        exact loaded
      · intro other
        rw [levels other, Version.level_modify here, Placement.tablesAt_cons]
        by_cases same : other = place
        · rw [if_pos same, if_pos same, List.append_assoc]
          rfl
        · rw [if_neg same, if_neg same]

/-- Whatever has been opened was placed so. -/
theorem exists_lands_of_loadTables {disk : Disk fmt} {maxLevels : Nat}
    {listed : List (UInt64 × UInt32)} {version version' : Version fmt}
    (loaded : loadTables disk maxLevels listed version = .ok version') :
    ∃ placed : Placement fmt, Lands maxLevels listed placed ∧
      ∀ item ∈ placed, Opens disk item.1 := by
  induction listed generalizing version with
  | nil => exact ⟨[], rfl, List.forall_mem_nil _⟩
  | cons first rest ih =>
      obtain ⟨id, level⟩ := first
      rw [loadTables] at loaded
      split at loaded
      · cases loaded
      · rename_i file present
        split at loaded
        · cases loaded
        · rename_i handle opened
          dsimp only at loaded
          split at loaded
          · obtain ⟨placed, lands, opens⟩ := ih loaded
            refine ⟨(⟨id, handle⟩, min level.toNat (maxLevels - 1)) :: placed, ?_,
              List.forall_mem_cons.mpr ⟨⟨file, present, opened⟩, opens⟩⟩
            rw [Lands, List.map_cons, List.map_cons, lands]
            rfl
          · cases loaded

/-! ## The rebuilt version -/

/-- The version that opening a listing gives. -/
def rebuilt (maxLevels : Nat) (placed : Placement fmt) : Version fmt :=
  orderLevels ⟨(List.range maxLevels).map placed.tablesAt⟩

theorem length_orderLevels (version : Version fmt) :
    (orderLevels version).levels.length = version.levels.length := by
  obtain ⟨levels⟩ := version
  cases levels <;> simp [orderLevels]

theorem level_zero_orderLevels (version : Version fmt) :
    (orderLevels version).level 0 = (version.level 0).reverse := by
  obtain ⟨levels⟩ := version
  cases levels <;> rfl

theorem level_succ_orderLevels (version : Version fmt) (depth : Nat) :
    (orderLevels version).level (depth + 1) = sortBySmallest (version.level (depth + 1)) := by
  obtain ⟨levels⟩ := version
  cases levels with
  | nil => rfl
  | cons l0 deeper =>
      change ((deeper.map sortBySmallest)[depth]?).getD [] = sortBySmallest (deeper[depth]?.getD [])
      rw [List.getElem?_map]
      cases deeper[depth]? <;> rfl

section Rebuilt

variable {maxLevels : Nat} {placed : Placement fmt}

@[simp] theorem length_levels_rebuilt : (rebuilt maxLevels placed).levels.length = maxLevels := by
  unfold rebuilt
  rw [length_orderLevels, List.length_map, List.length_range]

theorem level_zero_rebuilt (positive : 1 ≤ maxLevels) :
    (rebuilt maxLevels placed).level 0 = (placed.tablesAt 0).reverse := by
  unfold rebuilt
  rw [level_zero_orderLevels, Version.level_map_range _ positive]

theorem level_succ_rebuilt {depth : Nat} (inside : depth + 1 < maxLevels) :
    (rebuilt maxLevels placed).level (depth + 1) =
      sortBySmallest (placed.tablesAt (depth + 1)) := by
  unfold rebuilt
  rw [level_succ_orderLevels, Version.level_map_range _ inside]

theorem levelsSorted_rebuilt : LevelsSorted (rebuilt maxLevels placed) := by
  intro depth positive
  obtain ⟨depth, rfl⟩ : ∃ less, depth = less + 1 := ⟨depth - 1, by omega⟩
  unfold rebuilt
  rw [level_succ_orderLevels]
  exact sortBySmallest_sorted _

theorem level_rebuilt_perm (recordable : placed.Recordable maxLevels) (depth : Nat) :
    ((rebuilt maxLevels placed).level depth).Perm (placed.tablesAt depth) := by
  by_cases inside : depth < maxLevels
  · cases depth with
    | zero =>
        rw [level_zero_rebuilt inside]
        exact List.reverse_perm _
    | succ depth =>
        rw [level_succ_rebuilt inside]
        exact sortBySmallest_perm _
  · have nothing : placed.tablesAt depth = [] := by
      refine List.eq_nil_iff_forall_not_mem.mpr ?_
      intro table member
      exact inside (recordable _ (Placement.mem_tablesAt.mp member)).1
    rw [nothing, Version.level_of_le (by rw [length_levels_rebuilt]; omega)]

theorem mem_tables_rebuilt (recordable : placed.Recordable maxLevels) {table : SsTable fmt} :
    table ∈ (rebuilt maxLevels placed).tablesNewestFirst ↔ ∃ depth, (table, depth) ∈ placed := by
  rw [Version.mem_tables_iff]
  refine exists_congr ?_
  intro depth
  rw [(level_rebuilt_perm recordable depth).mem_iff, Placement.mem_tablesAt]

theorem flatMap_tablesAt_perm (inside : ∀ item ∈ placed, item.2 < maxLevels) :
    ((List.range maxLevels).flatMap placed.tablesAt).Perm (placed.map (·.1)) := by
  induction placed with
  | nil =>
      have nothing : (List.range maxLevels).flatMap (Placement.tablesAt ([] : Placement fmt)) = [] :=
        List.flatMap_eq_nil_iff.mpr fun _ _ => rfl
      rw [nothing]
      exact .nil
  | cons item rest ih =>
      obtain ⟨here, later⟩ := List.forall_mem_cons.mp inside
      have groups : Placement.tablesAt (item :: rest) = fun depth =>
          if depth = item.2 then item.1 :: Placement.tablesAt rest depth else Placement.tablesAt rest depth := by
        funext depth
        exact Placement.tablesAt_cons item rest depth
      rw [groups, List.map_cons]
      exact (perm_flatMap_insert item.1 (List.mem_range.mpr here) List.nodup_range).trans
        ((ih later).cons item.1)

theorem tables_rebuilt_perm (recordable : placed.Recordable maxLevels) :
    (rebuilt maxLevels placed).tablesNewestFirst.Perm (placed.map (·.1)) := by
  rw [Version.tables_eq_flatMap, length_levels_rebuilt]
  exact (List.Perm.flatMap_left _ fun depth _ => level_rebuilt_perm recordable depth).trans
    (flatMap_tablesAt_perm fun item member => (recordable item member).1)

end Rebuilt

/-- An engine as it is right after opening. -/
def Engine.opened (options : Options) (manifest : Manifest) (version : Version fmt)
    (memtable : MemTable) : Engine fmt where
  options := options
  memtable := memtable
  immutable := none
  version := version
  manifest := manifest
  cache := fmt.emptyCache options
  lastError := none
  bloomSkips := 0
  sstableReads := 0
  inbox := 0
  running := true

/-- The tables that are opened are those of the table files. -/
theorem mem_loadTables {disk : Disk fmt} {maxLevels : Nat}
    {listing : List (UInt64 × UInt32)} {version version' : Version fmt}
    (loaded : loadTables disk maxLevels listing version = .ok version')
    {table : SsTable fmt} (member : table ∈ version'.tablesNewestFirst) :
    table ∈ version.tablesNewestFirst ∨
      ∃ file, disk.sst table.id = some file ∧ fmt.openFile file = .ok table.handle := by
  induction listing generalizing version with
  | nil =>
      cases loaded
      exact .inl member
  | cons item rest ih =>
      obtain ⟨id, level⟩ := item
      rw [loadTables] at loaded
      cases isFile : disk.sst id with
      | none =>
          rw [isFile] at loaded
          cases loaded
      | some file =>
          rw [isFile] at loaded
          dsimp only at loaded
          cases opened : fmt.openFile file with
          | error cause =>
              rw [opened] at loaded
              cases loaded
          | ok handle =>
              rw [opened] at loaded
              dsimp only at loaded
              split at loaded
              · rename_i inside
                rcases ih loaded with earlier | found
                · obtain ⟨depth, inLevel⟩ := Version.mem_tables_iff.mp earlier
                  rw [Version.level_modify inside] at inLevel
                  split_ifs at inLevel with here
                  · rcases List.mem_append.mp inLevel with older | isNew
                    · exact .inl (Version.mem_tables_iff.mpr ⟨_, older⟩)
                    · rw [List.mem_singleton.mp isNew]
                      exact .inr ⟨file, isFile, opened⟩
                  · exact .inl (Version.mem_tables_iff.mpr ⟨_, inLevel⟩)
                · exact .inr found
              · cases loaded

theorem mem_orderLevels {version : Version fmt}
    {table : SsTable fmt} :
    table ∈ (orderLevels version).tablesNewestFirst ↔ table ∈ version.tablesNewestFirst := by
  simp only [Version.mem_tables_iff]
  refine exists_congr fun depth => ?_
  cases depth with
  | zero => rw [level_zero_orderLevels, List.mem_reverse]
  | succ depth => rw [level_succ_orderLevels, (sortBySmallest_perm _).mem_iff]

theorem files_of_loadTables {disk : Disk fmt} {maxLevels : Nat}
    {listing : List (UInt64 × UInt32)} {version version' : Version fmt}
    (loaded : loadTables disk maxLevels listing version = .ok version') :
    ∀ id ∈ listing.map (·.1), disk.sst id ≠ none := by
  induction listing generalizing version with
  | nil => exact List.forall_mem_nil _
  | cons item rest ih =>
      obtain ⟨id, level⟩ := item
      rw [loadTables] at loaded
      split at loaded
      · cases loaded
      · rename_i file present
        split at loaded
        · cases loaded
        · dsimp only at loaded
          split at loaded
          · refine List.forall_mem_cons.mpr ⟨?_, ih loaded⟩
            rw [show disk.sst id = some file from present]
            exact Option.some_ne_none file
          · cases loaded

/-- What an engine holds that was opened on a directory. -/
theorem openWith_cases {options : Options} {disk : Disk fmt} {engine : Engine fmt}
    (opened : openWith options disk = .ok engine) :
    engine.cache = fmt.emptyCache options ∧ ∃ version,
      loadTables disk options.maxLevels engine.manifest.tables
        (Version.withMaxLevels fmt options.maxLevels) = .ok version ∧
      engine.version = orderLevels version := by
  unfold openWith at opened
  split at opened
  · cases opened
  · split at opened
    · cases opened
    · rename_i version loaded
      split at opened <;> cases opened
      exact ⟨rfl, version, loaded, rfl⟩

/-- The tables of an engine that was opened come from the table files. -/
theorem mem_of_openWith {options : Options} {disk : Disk fmt} {engine : Engine fmt}
    (opened : openWith options disk = .ok engine) {table : SsTable fmt}
    (member : table ∈ engine.version.tablesNewestFirst) :
    ∃ file, disk.sst table.id = some file ∧ fmt.openFile file = .ok table.handle := by
  obtain ⟨_, version, loaded, isVersion⟩ := openWith_cases opened
  rw [isVersion, mem_orderLevels] at member
  rcases mem_loadTables loaded member with impossible | found
  · obtain ⟨depth, inLevel⟩ := Version.mem_tables_iff.mp impossible
    rw [Version.level_withMaxLevels] at inLevel
    cases inLevel
  · exact found

/-- **Opening a directory** whose manifest lists tables that can be opened and whose
log can be replayed. -/
theorem openWith_of_lands {options : Options} {disk : Disk fmt} {manifest : Manifest}
    {placed : Placement fmt} {operations : List Operation}
    (recovered : Manifest.recover disk.manifest = .ok manifest)
    (lands : Lands options.maxLevels manifest.tables placed)
    (inside : ∀ item ∈ placed, item.2 < options.maxLevels)
    (opens : ∀ item ∈ placed, Opens disk item.1) (replayed : replay disk.wal = .ok operations) :
    openWith options disk =
      .ok (Engine.opened options manifest (rebuilt options.maxLevels placed)
        (applyAll operations)) := by
  have empty := Version.level_withMaxLevels fmt options.maxLevels
  obtain ⟨version, loaded, length, levels⟩ := loadTables_lands lands inside opens
    (show (Version.withMaxLevels fmt options.maxLevels).levels.length = options.maxLevels from
      List.length_replicate)
  have isRange : version = ⟨(List.range options.maxLevels).map placed.tablesAt⟩ := by
    refine Version.ext_level (by simpa using length) ?_
    intro depth
    rw [levels depth, empty, List.nil_append]
    by_cases shallow : depth < options.maxLevels
    · rw [Version.level_map_range _ shallow]
    · rw [Version.level_of_le (by simpa using shallow)]
      refine List.eq_nil_iff_forall_not_mem.mpr ?_
      intro table member
      exact shallow (inside _ (Placement.mem_tablesAt.mp member))
  have replayed' : (Wal.openLog (some disk.wal)).replay = .ok operations := replayed
  unfold openWith
  simp only [recovered, loaded, replayed', isRange]
  rfl

/-- Opening a directory whose manifest lists the tables of a placement. -/
theorem openWith_of_placement (sound : fmt.Sound Fits) {options : Options} {disk : Disk fmt}
    {manifest : Manifest} {placed : Placement fmt} {operations : List Operation}
    (recovered : Manifest.recover disk.manifest = .ok manifest)
    (listed : manifest.tables = placed.listing)
    (held : ∀ item ∈ placed, Held sound disk.sst item.1)
    (recordable : placed.Recordable options.maxLevels)
    (replayed : replay disk.wal = .ok operations) :
    openWith options disk =
      .ok (Engine.opened options manifest (rebuilt options.maxLevels placed)
        (applyAll operations)) := by
  refine openWith_of_lands recovered ?_ (fun item member => (recordable item member).1)
    (fun item member => (held item member).opens) replayed
  rw [listed]
  exact lands_listing recordable

/-! ## Rearranged versions -/

/-- The two versions differ at most in the order of the tables of their deeper
levels. -/
structure Rearranged (version version' : Version fmt) : Prop where
  length : version'.levels.length = version.levels.length
  top : version'.level 0 = version.level 0
  deeper : ∀ depth, 1 ≤ depth → (version'.level depth).Perm (version.level depth)

namespace Rearranged

variable {version version' : Version fmt}

theorem level_perm (rearranged : Rearranged version version') (depth : Nat) :
    (version'.level depth).Perm (version.level depth) := by
  cases depth with
  | zero => rw [rearranged.top]
  | succ depth => exact rearranged.deeper (depth + 1) (by omega)

theorem tables_perm (rearranged : Rearranged version version') :
    version'.tablesNewestFirst.Perm version.tablesNewestFirst := by
  rw [Version.tables_eq_flatMap, Version.tables_eq_flatMap, rearranged.length]
  exact List.Perm.flatMap_left _ fun depth _ => rearranged.level_perm depth

/-- Rearranging the deeper levels changes no lookup. -/
theorem lookupIn_eq {content : SsTable fmt → List (Key × Entry)}
    (rearranged : Rearranged version version') (levelled : WellLevelled content version)
    (key : Key) :
    lookupIn content version'.tablesNewestFirst key =
      lookupIn content version.tablesNewestFirst key := by
  unfold lookupIn
  rw [Version.tables_eq_flatMap, Version.tables_eq_flatMap, rearranged.length,
    findSome?_flatMap, findSome?_flatMap]
  refine findSome?_congr ?_
  intro depth _
  cases depth with
  | zero => rw [rearranged.top]
  | succ depth =>
      have single : AtMostOneHit (entryIn content key) (version.level (depth + 1)) :=
        Admissible.seat_single levelled (depth + 1) key
      exact (single.findSome?_perm (rearranged.deeper (depth + 1) (by omega)).symm).symm

theorem stocked {sound : fmt.Sound Fits} {files : UInt64 → Option fmt.File}
    (rearranged : Rearranged version version') (stocked : Stocked sound files version) :
    Stocked sound files version' := by
  refine ⟨?_, ?_, ?_⟩
  · intro table member
    exact stocked.held table (rearranged.tables_perm.subset member)
  · exact (rearranged.tables_perm.map SsTable.id).nodup_iff.mpr stocked.distinct
  · intro depth positive
    exact (rearranged.deeper depth positive).symm.pairwise (stocked.disjoint depth positive)
      fun apart => apart.symm

end Rearranged

/-! ## Placements of a version -/

/-- The placement has the tables of the version: those of level 0 oldest first,
those of a deeper level in some order. -/
structure Places (placed : Placement fmt) (version : Version fmt) : Prop where
  top : placed.tablesAt 0 = (version.level 0).reverse
  deeper : ∀ depth, 1 ≤ depth → (placed.tablesAt depth).Perm (version.level depth)

/-- The manifest's list places the tables of the version. -/
def Mirrors (listed : List (UInt64 × UInt32)) (version : Version fmt) : Prop :=
  ∃ placed : Placement fmt, Places placed version ∧ listed = placed.listing

/-- Every table lies in a level whose number survives the cut to 32 bits. -/
def LevelsFit (version : Version fmt) : Prop :=
  ∀ depth, 2 ^ 32 ≤ depth → version.level depth = []

namespace Places

variable {placed : Placement fmt} {version : Version fmt}

theorem level_perm (places : Places placed version) (depth : Nat) :
    (placed.tablesAt depth).Perm (version.level depth) := by
  cases depth with
  | zero =>
      rw [places.top]
      exact List.reverse_perm _
  | succ depth => exact places.deeper (depth + 1) (by omega)

theorem mem_iff (places : Places placed version) {table : SsTable fmt} {depth : Nat} :
    (table, depth) ∈ placed ↔ table ∈ version.level depth := by
  rw [← Placement.mem_tablesAt, (places.level_perm depth).mem_iff]

theorem mem_tables (places : Places placed version) {item : SsTable fmt × Nat}
    (member : item ∈ placed) : item.1 ∈ version.tablesNewestFirst :=
  Version.mem_tables_iff.mpr ⟨item.2, places.mem_iff.mp member⟩

theorem recordable (places : Places placed version) (fit : LevelsFit version) :
    placed.Recordable version.levels.length := by
  intro item member
  have inLevel := places.mem_iff.mp member
  constructor
  · by_contra outside
    rw [Version.level_of_le (not_lt.mp outside)] at inLevel
    cases inLevel
  · by_contra outside
    rw [fit item.2 (not_lt.mp outside)] at inLevel
    cases inLevel

theorem rearranged (places : Places placed version) (fit : LevelsFit version)
    (positive : 1 ≤ version.levels.length) :
    Rearranged version (rebuilt version.levels.length placed) := by
  refine ⟨length_levels_rebuilt, ?_, ?_⟩
  · rw [level_zero_rebuilt positive, places.top, List.reverse_reverse]
  · intro depth deep
    exact (level_rebuilt_perm (places.recordable fit) depth).trans (places.deeper depth deep)

/-- The rebuilt version has the same placement. -/
theorem rebuilt (places : Places placed version) (fit : LevelsFit version)
    (positive : 1 ≤ version.levels.length) :
    Places placed (LsmStore.rebuilt version.levels.length placed) := by
  have same := places.rearranged fit positive
  refine ⟨?_, ?_⟩
  · rw [same.top, places.top]
  · intro depth deep
    exact (places.deeper depth deep).trans (same.deeper depth deep).symm

theorem pushFront (places : Places placed version) {table : SsTable fmt} {version' : Version fmt}
    (pushed : version.pushFront table = .ok version') :
    Places (placed ++ [(table, 0)]) version' := by
  obtain ⟨_, _, top, deeper⟩ := pushFront_eq_ok pushed
  refine ⟨?_, ?_⟩
  · rw [Placement.tablesAt_append, Placement.tablesAt_singleton, if_pos rfl, places.top, top,
      List.reverse_cons]
  · intro depth deep
    rw [Placement.tablesAt_append, Placement.tablesAt_singleton, if_neg (by omega),
      List.append_nil, deeper depth deep]
    exact places.deeper depth deep

/-- A compaction keeps the placement; an output for level 0 has to find it empty,
since it is recorded as its newest table and installed as its oldest. -/
theorem install (places : Places placed version) {job : CompactionJob fmt} {output : SsTable fmt}
    (inside : job.outputLevel < version.levels.length) (fresh : job.takes output = false)
    (alone : job.outputLevel = 0 → job.keeps (version.level 0) = []) :
    Places ((placed ++ [(output, job.outputLevel)]).filter fun item => !job.takes item.1)
      (installed version job output) := by
  have levels := Placement.tablesAt_install placed fresh
  have kept : ∀ depth, (job.keeps (placed.tablesAt depth)).Perm (job.keeps (version.level depth)) :=
    fun depth => (places.level_perm depth).filter _
  refine ⟨?_, ?_⟩
  · rw [levels, level_installed _ _ _ inside]
    by_cases here : 0 = job.outputLevel
    · have nothing := alone here.symm
      have keptNothing : job.keeps (placed.tablesAt 0) = [] := (nothing ▸ kept 0).eq_nil
      rw [if_pos here, if_pos here, nothing, keptNothing]
      rfl
    · rw [if_neg here, if_neg here, List.append_nil, places.top]
      exact List.filter_reverse
  · intro depth deep
    rw [levels, level_installed _ _ _ inside]
    by_cases here : depth = job.outputLevel
    · rw [if_pos here, if_pos here]
      exact ((kept depth).append_right _).trans
        ((List.perm_append_singleton _ _).trans (placeOutput_perm output depth _).symm)
    · rw [if_neg here, if_neg here, List.append_nil]
      exact kept depth

theorem listing_install (placed : Placement fmt) (job : CompactionJob fmt) (output : SsTable fmt) :
    Placement.listing ((placed ++ [(output, job.outputLevel)]).filter
        fun item => !job.takes item.1) =
      (placed.listing ++ [(output.id, UInt32.ofNat job.outputLevel)]).filter
        fun table => !(job.inputs.map SsTable.id).contains table.1 := by
  have whole : placed.listing ++ [(output.id, UInt32.ofNat job.outputLevel)] =
      Placement.listing (placed ++ [(output, job.outputLevel)]) := by
    simp [Placement.listing]
  rw [whole]
  unfold Placement.listing
  rw [List.filter_map]
  rfl

end Places

namespace Mirrors

variable {listed : List (UInt64 × UInt32)} {version : Version fmt}

theorem lists_iff (mirrors : Mirrors listed version) {id : UInt64} :
    id ∈ listed.map (·.1) ↔ ∃ table ∈ version.tablesNewestFirst, table.id = id := by
  obtain ⟨placed, places, rfl⟩ := mirrors
  rw [Placement.mem_listing]
  constructor
  · rintro ⟨item, member, same⟩
    exact ⟨item.1, places.mem_tables member, same⟩
  · rintro ⟨table, member, same⟩
    obtain ⟨depth, inLevel⟩ := Version.mem_tables_iff.mp member
    exact ⟨(table, depth), places.mem_iff.mpr inLevel, same⟩

theorem pushFront (mirrors : Mirrors listed version) {table : SsTable fmt} {version' : Version fmt}
    (pushed : version.pushFront table = .ok version') :
    Mirrors (listed ++ [(table.id, 0)]) version' := by
  obtain ⟨placed, places, rfl⟩ := mirrors
  exact ⟨_, places.pushFront pushed, by simp [Placement.listing]⟩

/-- A job whose output is recorded behind the others and whose inputs are dropped. -/
theorem install (mirrors : Mirrors listed version) {job : CompactionJob fmt} {output : SsTable fmt}
    (inside : job.outputLevel < version.levels.length) (fresh : job.takes output = false)
    (alone : job.outputLevel = 0 → job.keeps (version.level 0) = []) :
    Mirrors ((listed ++ [(output.id, UInt32.ofNat job.outputLevel)]).filter
      fun table => !(job.inputs.map SsTable.id).contains table.1) (installed version job output) := by
  obtain ⟨placed, places, rfl⟩ := mirrors
  exact ⟨_, places.install inside fresh alone, (Places.listing_install placed job output).symm⟩

end Mirrors

/-- A picked job whose output goes into level 0 takes all of level 0. -/
theorem keeps_level_zero_of_pick {version : Version fmt} {options : Options}
    {job : CompactionJob fmt} (picked : pickCompaction version options = .ok (some job))
    (top : job.outputLevel = 0) : job.keeps (version.level 0) = [] := by
  rcases pickCompaction_eq_some picked with ⟨l0, deeper, isLevels, _, rfl⟩ |
    ⟨depth, victim, others, _, _, _, rfl⟩
  · refine List.filter_eq_nil_iff.mpr ?_
    intro table member
    have isInput : table ∈ l0 := by
      rw [Version.level, isLevels] at member
      exact member
    have taken : CompactionJob.takes (⟨l0 ++ (version.level 1).filter fun table =>
        overlaps table (span l0).1 (span l0).2, min 1 (options.maxLevels - 1)⟩) table = true :=
      CompactionJob.takes_of_mem (List.mem_append_left _ isInput)
    simp [taken]
  · cases top

end LsmStore
