import LsmStore.ByteTables
import LsmStore.Foundation.StableSort
import LsmStore.Sturdy

/-!
# What reopening reconstructs

The live tables are kept twice: in the version, which readers search, and in the
manifest, from which the version is rebuilt when the directory is opened.  A flush and a
pass enter their table into the manifest first and into the version later, and the steps
of the other may come in between.

The order of the records tells the order of the version: level 0 is the reverse of it,
and a deeper level is sorted by smallest key, with tables of equal smallest keys in the
order of their records (`Arranges`).  While a flush or a pass is between its two entries,
the manifest is ahead of the version by what `Flush.entered` and `Pass.entered` say
(`Booked`).

One entry does not fit.  With a single level the output of a pass goes behind all other
tables of level 0 in the version, but in the manifest behind its records, as if it were
the newest table.  As long as a pass with output for level 0 finds nothing but its inputs
in the manifest, reopening gives back the version as it was (`reopening_reconstructs`).
-/

set_option autoImplicit false

namespace LsmStore

open Foundation

variable {fmt : TableFormat} {Fits : Options → List (Key × Entry) → Prop}

/-! ## Versions in the order of their records -/

section Sorting

theorem keeps_sortBySmallest (job : CompactionJob fmt) (tables : List (SsTable fmt)) :
    job.keeps (sortBySmallest tables) = sortBySmallest (job.keeps tables) := by
  have total : Std.Total (fun first second : SsTable fmt =>
      first.smallestKey ≤ second.smallestKey) := ⟨fun _ _ => le_total _ _⟩
  have transitive : IsTrans (SsTable fmt) (fun first second =>
      first.smallestKey ≤ second.smallestKey) := ⟨fun _ _ _ => le_trans⟩
  exact filter_insertionSort _ tables

theorem sortBySmallest_sortBySmallest_append (first second : List (SsTable fmt)) :
    sortBySmallest (sortBySmallest first ++ second) = sortBySmallest (first ++ second) := by
  have total : Std.Total (fun first second : SsTable fmt =>
      first.smallestKey ≤ second.smallestKey) := ⟨fun _ _ => le_total _ _⟩
  have transitive : IsTrans (SsTable fmt) (fun first second =>
      first.smallestKey ≤ second.smallestKey) := ⟨fun _ _ _ => le_trans⟩
  exact insertionSort_insertionSort_append first second

end Sorting

/-- The version has the tables of each level, given oldest first: level 0 turned around,
the deeper levels sorted. -/
structure Arranges (version : Version fmt) (held : Nat → List (SsTable fmt)) : Prop where
  top : version.level 0 = (held 0).reverse
  deeper : ∀ depth, version.level (depth + 1) = sortBySmallest (held (depth + 1))

/-- The tables of each level once a pass has replaced its inputs by its output. -/
def settle (job : CompactionJob fmt) (output : SsTable fmt) (held : Nat → List (SsTable fmt))
    (depth : Nat) : List (SsTable fmt) :=
  if depth = job.outputLevel then
    if depth = 0 then output :: job.keeps (held depth) else job.keeps (held depth) ++ [output]
  else job.keeps (held depth)

namespace Arranges

variable {version version' : Version fmt} {held : Nat → List (SsTable fmt)}

theorem mem_level (arranges : Arranges version held) {depth : Nat} {table : SsTable fmt} :
    table ∈ version.level depth ↔ table ∈ held depth := by
  cases depth with
  | zero => rw [arranges.top, List.mem_reverse]
  | succ depth => rw [arranges.deeper, (sortBySmallest_perm _).mem_iff]

theorem of_rebuilt {maxLevels : Nat} {placed : Placement fmt} (positive : 1 ≤ maxLevels)
    (inside : ∀ item ∈ placed, item.2 < maxLevels) :
    Arranges (rebuilt maxLevels placed) placed.tablesAt := by
  refine ⟨level_zero_rebuilt positive, fun depth => ?_⟩
  by_cases shallow : depth + 1 < maxLevels
  · exact level_succ_rebuilt shallow
  · have nothing : placed.tablesAt (depth + 1) = [] := by
      refine List.eq_nil_iff_forall_not_mem.mpr fun table member => ?_
      exact shallow (inside _ (Placement.mem_tablesAt.mp member))
    rw [nothing, Version.level_of_le (by rw [length_levels_rebuilt]; omega)]
    rfl

/-- The arrangement and the number of levels determine the version. -/
theorem unique (arranges : Arranges version held) (arranges' : Arranges version' held)
    (length : version.levels.length = version'.levels.length) : version = version' := by
  refine Version.ext_level length fun depth => ?_
  cases depth with
  | zero => rw [arranges.top, arranges'.top]
  | succ depth => rw [arranges.deeper, arranges'.deeper]

theorem pushFront (arranges : Arranges version held) {table : SsTable fmt}
    (pushed : version.pushFront table = .ok version') :
    Arranges version' fun depth => held depth ++ if depth = 0 then [table] else [] := by
  obtain ⟨_, _, top, deeper⟩ := pushFront_eq_ok pushed
  refine ⟨?_, fun depth => ?_⟩
  · rw [top, arranges.top]
    simp
  · rw [deeper _ (by omega), arranges.deeper]
    simp

theorem install (arranges : Arranges version held) {job : CompactionJob fmt}
    (inside : job.outputLevel < version.levels.length) (output : SsTable fmt) :
    Arranges (installed version job output) (settle job output held) := by
  refine ⟨?_, fun depth => ?_⟩
  · have turned : job.keeps (held 0).reverse = (job.keeps (held 0)).reverse :=
      List.filter_reverse
    rw [level_installed _ _ _ inside, settle, arranges.top, turned]
    by_cases here : 0 = job.outputLevel
    · rw [if_pos here, if_pos here, if_pos rfl, placeOutput, if_neg (lt_irrefl 0),
        List.reverse_cons]
    · rw [if_neg here, if_neg here]
  · rw [level_installed _ _ _ inside, settle, arranges.deeper, keeps_sortBySmallest]
    by_cases here : depth + 1 = job.outputLevel
    · rw [if_pos here, if_pos here, if_neg (Nat.succ_ne_zero depth), placeOutput,
        if_pos (Nat.succ_pos depth), sortBySmallest_sortBySmallest_append]
    · rw [if_neg here, if_neg here]

end Arranges

/-! ## What the manifest has that the version does not -/

/-- The table that a flush has entered into the manifest only. -/
def Flush.entered : Flush fmt → Nat → List (SsTable fmt)
  | .recorded _ table, depth => if depth = 0 then [table] else []
  | _, _ => []

/-- The tables of each level with what a pass has entered into the manifest only. -/
def Pass.entered : Pass fmt → (Nat → List (SsTable fmt)) → Nat → List (SsTable fmt)
  | .recorded _ job output, held => settle job output held
  | _, held => held

/-- How far the manifest is ahead of the version. -/
def Booked (db : Db fmt) (flush : Flush fmt) (pass : Pass fmt) : Prop :=
  ∃ (placed : Placement fmt) (held : Nat → List (SsTable fmt)),
    Lands db.engine.options.maxLevels db.engine.manifest.tables placed ∧
      Arranges db.engine.version held ∧
      ∀ depth, placed.tablesAt depth = pass.entered held depth ++ flush.entered depth

namespace Booked

variable {db db' : Db fmt} {flush flush' : Flush fmt} {pass pass' : Pass fmt}

/-- A step that enters nothing anywhere. -/
theorem frame (booked : Booked db flush pass) (options : db'.engine.options = db.engine.options)
    (tables : db'.engine.manifest.tables = db.engine.manifest.tables)
    (version : db'.engine.version = db.engine.version) (sameFlush : flush'.entered = flush.entered)
    (samePass : pass'.entered = pass.entered) : Booked db' flush' pass' := by
  unfold Booked
  rw [options, tables, version, sameFlush, samePass]
  exact booked

/-- A flush enters its table into the manifest. -/
theorem recordFlush {snapshot : List (Key × Entry)} {table : SsTable fmt}
    (booked : Booked db (.written snapshot table) pass) :
    Booked (db.recorded table.id 0 []) (.recorded snapshot table) pass := by
  obtain ⟨placed, held, lands, arranges, entered⟩ := booked
  refine ⟨placed ++ [(table, 0)], held, ?_, arranges, fun depth => ?_⟩
  · have tables : (db.recorded table.id 0 []).engine.manifest.tables =
        db.engine.manifest.tables ++ [(table.id, 0)] := by
      simp [Db.recorded, Manifest.removed, Manifest.added]
    rw [tables]
    exact lands.append (Nat.zero_min _)
  · rw [Placement.tablesAt_append, Placement.tablesAt_singleton, entered]
    exact congrArg (· ++ _) (List.append_nil _)

/-- A table that a pass does not take is entered into the version. -/
theorem entered_pushFront {held : Nat → List (SsTable fmt)} {table : SsTable fmt}
    (untaken : ∀ snapshot job, pass.task = some (snapshot, job) → job.takes table = false)
    (depth : Nat) :
    pass.entered (fun depth => held depth ++ if depth = 0 then [table] else []) depth =
      pass.entered held depth ++ if depth = 0 then [table] else [] := by
  cases pass with
  | idle => rfl
  | picked snapshot job => rfl
  | allocated snapshot job outputId => rfl
  | written snapshot job output => rfl
  | recorded snapshot job output =>
      have stays : job.keeps [table] = [table] := by
        rw [CompactionJob.keeps, List.filter_cons_of_pos (by simp [untaken snapshot job rfl]),
          List.filter_nil]
      have keeps_append : ∀ tables : List (SsTable fmt),
          job.keeps (tables ++ [table]) = job.keeps tables ++ [table] := by
        intro tables
        rw [CompactionJob.keeps, List.filter_append]
        exact congrArg _ stays
      simp only [Pass.entered, settle]
      by_cases top : depth = 0
      · simp only [top, ↓reduceIte, keeps_append]
        split <;> rfl
      · simp only [top, ↓reduceIte, List.append_nil]

/-- A flush enters its table into the version. -/
theorem pushFront {snapshot : List (Key × Entry)} {table : SsTable fmt} {version : Version fmt}
    (booked : Booked db (.recorded snapshot table) pass)
    (untaken : ∀ snapshot job, pass.task = some (snapshot, job) → job.takes table = false)
    (pushed : db.engine.version.pushFront table = .ok version) :
    Booked (db.withVersion version) (.installed snapshot) pass := by
  obtain ⟨placed, held, lands, arranges, entered⟩ := booked
  refine ⟨placed, _, lands, arranges.pushFront pushed, fun depth => ?_⟩
  rw [entered, entered_pushFront untaken]
  exact (List.append_nil _).symm

/-- A pass enters its output into the manifest.  In level 0 it has to find nothing but its
inputs. -/
theorem recordPass {snapshot : Version fmt} {job : CompactionJob fmt} {output : SsTable fmt}
    (booked : Booked db flush (.written snapshot job output))
    (inside : job.outputLevel < db.engine.options.maxLevels) (short : job.outputLevel < 2 ^ 32)
    (alone : job.outputLevel = 0 →
      ∀ id ∈ db.engine.manifest.ids, id ∈ job.inputs.map SsTable.id)
    (fresh : job.takes output = false)
    (untaken : ∀ depth, ∀ table ∈ flush.entered depth, job.takes table = false) :
    Booked (db.recorded output.id (UInt32.ofNat job.outputLevel) (job.inputs.map SsTable.id)) flush
      (.recorded snapshot job output) := by
  obtain ⟨placed, held, lands, arranges, entered⟩ := booked
  have isLevel : (UInt32.ofNat job.outputLevel).toNat = job.outputLevel :=
    UInt32.toNat_ofNat_of_lt' short
  refine ⟨_, held, (lands.append (show min (UInt32.ofNat job.outputLevel).toNat _ = _ by
    rw [isLevel, min_eq_left (by omega)])).filter fun id =>
      !(job.inputs.map SsTable.id).contains id, arranges, fun depth => ?_⟩
  refine (Placement.tablesAt_install placed fresh depth).trans ?_
  have keptFlush : job.keeps (flush.entered depth) = flush.entered depth :=
    List.filter_eq_self.mpr fun table member => by simp [untaken depth table member]
  have kept : job.keeps (placed.tablesAt depth) =
      job.keeps (held depth) ++ flush.entered depth := by
    rw [entered, CompactionJob.keeps, List.filter_append]
    exact congrArg _ keptFlush
  rw [kept]
  by_cases here : depth = job.outputLevel
  · rw [Pass.entered, settle, if_pos here, if_pos here]
    by_cases top : depth = 0
    · -- Everything that was listed is taken, so the output stands alone.
      have nothing : job.keeps (placed.tablesAt depth) = [] := by
        refine List.filter_eq_nil_iff.mpr fun table member => ?_
        have listed : table.id ∈ db.engine.manifest.ids := by
          have placedToo := List.mem_map_of_mem (f := fun item : SsTable fmt × Nat =>
            (item.1.id, item.2)) (Placement.mem_tablesAt.mp member)
          rw [lands] at placedToo
          obtain ⟨entry, isEntry, same⟩ := List.mem_map.mp placedToo
          exact List.mem_map.mpr ⟨entry, isEntry, congrArg Prod.fst same⟩
        have isInput := alone (here.symm.trans top) _ listed
        simpa [CompactionJob.takes] using isInput
      rw [kept] at nothing
      obtain ⟨noHeld, noFlush⟩ := List.append_eq_nil_iff.mp nothing
      rw [if_pos top, noHeld, noFlush]
      rfl
    · have noFlush : flush.entered depth = [] := by
        cases flush with
        | recorded _ table => exact if_neg top
        | _ => rfl
      rw [if_neg top, noFlush, List.append_nil, List.append_nil]
  · rw [Pass.entered, settle, if_neg here, if_neg here, List.append_nil]

/-- A pass enters its output into the version. -/
theorem install {snapshot : Version fmt} {job : CompactionJob fmt} {output : SsTable fmt}
    (booked : Booked db flush (.recorded snapshot job output))
    (inside : job.outputLevel < db.engine.version.levels.length) :
    Booked (db.withVersion (installed db.engine.version job output)) flush .idle := by
  obtain ⟨placed, held, lands, arranges, entered⟩ := booked
  exact ⟨placed, _, lands, arranges.install inside output, entered⟩

end Booked

/-! ## States whose version can be reconstructed -/

/-- The log consists of complete records of valid operations. -/
def Logged (wal : Bytes) : Prop :=
  ∃ operations, wal = records operations ∧
    ∀ operation ∈ operations, operation.Fits ∧ operation.key ≠ []

theorem Logged.append {wal : Bytes} (logged : Logged wal) {operation : Operation}
    (valid : operation.Fits ∧ operation.key ≠ []) : Logged (wal ++ record operation) := by
  obtain ⟨operations, rfl, earlier⟩ := logged
  refine ⟨operations ++ [operation], by simp [records], fun other member => ?_⟩
  rcases List.mem_append.mp member with old | new
  · exact earlier other old
  · rw [List.mem_singleton.mp new]
    exact valid

theorem Logged.replay {wal : Bytes} (logged : Logged wal) :
    ∃ operations, replay wal = .ok operations ∧ ∀ operation ∈ operations, operation.key ≠ [] := by
  obtain ⟨operations, rfl, valid⟩ := logged
  refine ⟨operations, ?_, fun operation member => (valid operation member).2⟩
  rw [← List.append_nil (records operations),
    replay_records_append fun operation member => (valid operation member).1]
  exact congrArg Except.ok (List.append_nil operations)

/-- What a pass under way can rely on: its output has a level to go to, and its inputs
are in the version. -/
def Pass.Supplied (db : Db fmt) (pass : Pass fmt) : Prop :=
  ∀ snapshot job, pass.task = some (snapshot, job) →
    job.outputLevel < db.engine.options.maxLevels ∧
      ∀ input ∈ job.inputs, input ∈ db.engine.version.tablesNewestFirst

/-- What holds of a state with a single worker in which no file operation fails. -/
structure Tracked (state : State fmt) : Prop where
  positive : 1 ≤ state.db.engine.options.maxLevels
  depth : state.db.engine.version.levels.length = state.db.engine.options.maxLevels
  logged : Logged state.db.disk.wal
  single : state.passes .caller = .idle
  reserved : Reserved state.idOf state.db.engine.manifest.nextTableId state.db.engine.version
  supplied : (state.passes .worker).Supplied state.db
  booked : Booked state.db state.flush (state.passes .worker)

namespace Tracked

variable {sound : fmt.Sound Fits} {state : State fmt} {contents : Contents fmt}

/-- The flush goes on, and at most adds to the version. -/
theorem withFlush (tracked : Tracked state) {db : Db fmt} {flush : Flush fmt}
    (options : db.engine.options = state.db.engine.options)
    (length : db.engine.version.levels.length = state.db.engine.version.levels.length)
    (logged : Logged db.disk.wal)
    (reserved : Reserved (Function.update state.idOf none flush.id)
      db.engine.manifest.nextTableId db.engine.version)
    (grown : ∀ table ∈ state.db.engine.version.tablesNewestFirst,
      table ∈ db.engine.version.tablesNewestFirst)
    (booked : Booked db flush (state.passes .worker)) :
    Tracked { state with db := db.planned [], flush := flush } where
  positive := by
    change 1 ≤ db.engine.options.maxLevels
    rw [options]
    exact tracked.positive
  depth := by
    change db.engine.version.levels.length = db.engine.options.maxLevels
    rw [length, options]
    exact tracked.depth
  logged := logged
  single := tracked.single
  reserved := by
    rw [State.idOf_flush]
    exact reserved
  supplied := by
    intro snapshot job isTask
    obtain ⟨inside, inputs⟩ := tracked.supplied snapshot job isTask
    refine ⟨?_, fun input isInput => grown input (inputs input isInput)⟩
    change job.outputLevel < db.engine.options.maxLevels
    rw [options]
    exact inside
  booked := booked.frame rfl rfl rfl rfl rfl

/-- A step of the flush that touches neither the manifest nor the version. -/
theorem quietFlush (tracked : Tracked state) {db : Db fmt} {flush : Flush fmt}
    (options : db.engine.options = state.db.engine.options)
    (manifest : db.engine.manifest = state.db.engine.manifest)
    (version : db.engine.version = state.db.engine.version) (logged : Logged db.disk.wal)
    (sameId : flush.id = state.flush.id) (sameEntered : flush.entered = state.flush.entered) :
    Tracked { state with db := db.planned [], flush := flush } := by
  refine tracked.withFlush options (by rw [version]) logged ?_ (fun _ member => by rwa [version])
    (tracked.booked.frame options (by rw [manifest]) version sameEntered rfl)
  rw [sameId, manifest, version,
    show Function.update state.idOf none state.flush.id = state.idOf from
      Function.update_eq_self none state.idOf]
  exact tracked.reserved

/-- The worker goes on. -/
theorem withPass (tracked : Tracked state) {db : Db fmt} {pass : Pass fmt}
    (options : db.engine.options = state.db.engine.options)
    (length : db.engine.version.levels.length = state.db.engine.version.levels.length)
    (wal : db.disk.wal = state.db.disk.wal)
    (reserved : Reserved (Function.update state.idOf (some .worker) pass.id)
      db.engine.manifest.nextTableId db.engine.version)
    (supplied : pass.Supplied db) (booked : Booked db state.flush pass) :
    Tracked
      { state with
        db := db.planned [], passes := Function.update state.passes .worker pass } where
  positive := by
    change 1 ≤ db.engine.options.maxLevels
    rw [options]
    exact tracked.positive
  depth := by
    change db.engine.version.levels.length = db.engine.options.maxLevels
    rw [length, options]
    exact tracked.depth
  logged := by
    change Logged db.disk.wal
    rw [wal]
    exact tracked.logged
  single := by
    dsimp only
    rw [Function.update_of_ne (by decide)]
    exact tracked.single
  reserved := by
    rw [State.idOf_pass]
    exact reserved
  supplied := by
    dsimp only
    rw [Function.update_self]
    exact supplied
  booked := by
    dsimp only
    rw [Function.update_self]
    exact booked.frame rfl rfl rfl rfl rfl

/-- A step of the worker that touches neither the manifest nor the version. -/
theorem quietPass (tracked : Tracked state) {db : Db fmt} {pass : Pass fmt}
    (options : db.engine.options = state.db.engine.options)
    (manifest : db.engine.manifest = state.db.engine.manifest)
    (version : db.engine.version = state.db.engine.version)
    (wal : db.disk.wal = state.db.disk.wal) (sameId : pass.id = (state.passes .worker).id)
    (supplied : pass.Supplied state.db)
    (sameEntered : pass.entered = (state.passes .worker).entered) :
    Tracked
      { state with
        db := db.planned [], passes := Function.update state.passes .worker pass } := by
  refine tracked.withPass options (by rw [version]) wal ?_ ?_
    (tracked.booked.frame options (by rw [manifest]) version rfl sameEntered)
  · rw [sameId, manifest, version,
      show Function.update state.idOf (some .worker) (state.passes .worker).id = state.idOf from
        Function.update_eq_self (some Thread.worker) state.idOf]
    exact tracked.reserved
  · unfold Pass.Supplied
    rw [options, version]
    exact supplied

/-! ### Writes and reads -/

theorem write (tracked : Tracked state) {operation : Option Operation}
    (valid : ∀ written ∈ operation, written.Fits ∧ written.key ≠ []) :
    Tracked (state.attemptWrite [] operation) := by
  unfold State.attemptWrite
  split
  · rename_i operation isIdle
    have logs := @logAndApply_eq fmt (state.db.planned []) rfl operation (valid operation rfl).1
    rw [logs]
    exact
      { positive := tracked.positive
        depth := tracked.depth
        logged := tracked.logged.append (valid operation rfl)
        single := tracked.single
        reserved := tracked.reserved
        supplied := tracked.supplied
        booked := tracked.booked.frame rfl rfl rfl rfl rfl }
  · exact tracked

theorem noted (tracked : Tracked state) {db : Db fmt} (noted : state.db.Noted db) :
    Tracked { state with db := db } where
  positive := by rw [noted.options]; exact tracked.positive
  depth := by rw [noted.options, noted.version]; exact tracked.depth
  logged := by rw [noted.disk]; exact tracked.logged
  single := tracked.single
  reserved := by
    dsimp only
    rw [noted.manifest, noted.version]
    exact tracked.reserved
  supplied := by
    unfold Pass.Supplied
    rw [noted.options, noted.version]
    exact tracked.supplied
  booked := tracked.booked.frame noted.options (by rw [noted.manifest]) noted.version rfl rfl

theorem read (tracked : Tracked state) (key : Key) : Tracked (state.attemptRead key) := by
  unfold State.attemptRead
  split
  · rename_i value db done
    exact tracked.noted ((noted_get key state.db).ok done)
  · rename_i failure db failed
    exact tracked.noted ((noted_get key state.db).error failed)

/-! ### Flushes -/

/-- The worker takes no table that is still under way. -/
theorem untaken (tracked : Tracked state) {owner : Owner} {table : SsTable fmt}
    (isId : state.idOf owner = some table.id) {snapshot : Version fmt} {job : CompactionJob fmt}
    (isTask : (state.passes .worker).task = some (snapshot, job)) : job.takes table = false := by
  by_contra taken
  obtain ⟨input, isInput, sameId⟩ := CompactionJob.takes_iff.mp (by simpa using taken)
  exact tracked.reserved.outside owner table.id isId input
    ((tracked.supplied snapshot job isTask).2 input isInput) sameId

/-- No table of the version has the next id. -/
theorem fresh (sturdy : Sturdy sound state) :
    ∀ table ∈ state.db.engine.version.tablesNewestFirst,
      table.id ≠ state.db.engine.manifest.nextTableId := by
  intro table member same
  have below := Sturdy.held_below sturdy.rooted (sturdy.rooted.held table member)
  rw [same] at below
  exact lt_irrefl _ below

/-- The id of a complete table under way is not listed. -/
theorem unlisted (intact : Intact state contents) {owner : Owner} {id : UInt64}
    (isSlot : state.slot owner = .filled id) : state.db.engine.manifest.lists id = false := by
  obtain ⟨durable, guarded⟩ := intact.guarded
  have ok := guarded.slotted owner
  rw [isSlot] at ok
  by_contra isListed
  have member := Manifest.lists_iff.mp (by simpa using isListed)
  rw [guarded.tables] at member
  exact ok.2.1 member

/-- **A step of a flush.** -/
theorem flushStep (tracked : Tracked state) (sturdy : Sturdy sound state)
    (intact : Intact state contents)
    (fits : ∀ snapshot id, state.flush = .allocated snapshot id →
      Fits state.db.engine.options snapshot) :
    Tracked (state.attemptFlush []) := by
  have own := sturdy.flush
  cases stage : state.flush with
  | idle =>
      cases empty : state.db.engine.memtable.isEmpty with
      | true =>
          have done := @Flush.advance_idle_of_empty fmt (state.db.planned []) _ empty rfl
          rw [← stage] at done
          rw [State.attemptFlush_of_ok done]
          exact tracked.quietFlush rfl rfl rfl tracked.logged (by rw [stage]) (by rw [stage])
      | false =>
          have done := @Flush.advance_idle fmt _ (state.db.planned []) _ empty rfl
          rw [← stage] at done
          rw [State.attemptFlush_of_ok done]
          exact tracked.quietFlush rfl rfl rfl tracked.logged (by rw [stage]; rfl)
            (by rw [stage]; rfl)
  | frozen snapshot =>
      by_cases room : Roomy state.db
      · have done := @Flush.advance_frozen fmt snapshot _ (state.db.planned []) _
          (nextTableId_eq rfl room)
        rw [← stage] at done
        rw [State.attemptFlush_of_ok done]
        exact tracked.withFlush rfl rfl tracked.logged
          (tracked.reserved.reserve room (fresh sturdy) none) (fun _ member => member)
          (tracked.booked.frame rfl rfl rfl (by rw [stage]; rfl) rfl)
      · have failed : state.flush.advance (state.db.planned []) =
            .error .panic (state.db.planned []) := by
          rw [stage]
          exact bind_of_error (nextTableId_panic room)
        rw [State.attemptFlush_of_error failed]
        exact tracked.quietFlush rfl rfl rfl tracked.logged (by rw [stage]; rfl)
          (by rw [stage]; rfl)
  | allocated snapshot id =>
      rw [stage] at own
      obtain ⟨file, handle, made, _⟩ := sound.create_ok own.1 (fits snapshot id stage)
      have done := @Flush.advance_allocated fmt snapshot _ _ (state.db.planned []) _
        (createTable_eq rfl id made)
      rw [← stage] at done
      rw [State.attemptFlush_of_ok done]
      exact tracked.quietFlush rfl rfl rfl tracked.logged (by rw [stage]; rfl) (by rw [stage]; rfl)
  | written snapshot table =>
      have isSlot : state.slot none = .filled table.id := by
        rw [State.slot, stage]
        rfl
      have done := @Flush.advance_written fmt snapshot table (state.db.planned []) _
        (addTable_eq rfl 0 (unlisted intact isSlot))
      rw [← stage] at done
      rw [State.attemptFlush_of_ok done]
      have booked := tracked.booked
      rw [stage] at booked
      refine tracked.withFlush rfl rfl tracked.logged ?_ (fun _ member => member)
        (booked.recordFlush.frame rfl rfl rfl rfl rfl)
      have sameId : (Flush.recorded snapshot table).id = state.idOf none := by
        rw [State.idOf, stage]
        rfl
      rw [sameId, Function.update_eq_self]
      exact tracked.reserved
  | recorded snapshot table =>
      obtain ⟨version, pushed⟩ := pushFront_ok
        (List.ne_nil_of_length_pos (by rw [tracked.depth]; exact tracked.positive)) table
      have done := @Flush.advance_recorded fmt snapshot table (state.db.planned []) _
        (pushFront_eq pushed)
      rw [← stage] at done
      rw [State.attemptFlush_of_ok done]
      have booked := tracked.booked
      rw [stage] at booked
      obtain ⟨tables, length, _⟩ := pushFront_eq_ok pushed
      have isId : state.idOf none = some table.id := by
        rw [State.idOf, stage]
        rfl
      refine tracked.withFlush rfl length tracked.logged ?_ ?_
        ((booked.pushFront (fun _ _ isTask => tracked.untaken isId isTask) pushed).frame
          rfl rfl rfl rfl rfl)
      · refine tracked.reserved.release isId fun other member => ?_
        change other ∈ version.tablesNewestFirst at member
        rw [tables] at member
        rcases List.mem_cons.mp member with rfl | old
        · exact .inl rfl
        · exact .inr old
      · intro other member
        change other ∈ version.tablesNewestFirst
        rw [tables]
        exact List.mem_cons_of_mem _ member
  | installed snapshot =>
      have done := @Flush.advance_installed fmt snapshot (state.db.planned []) _ rfl
      rw [← stage] at done
      rw [State.attemptFlush_of_ok done]
      exact tracked.quietFlush rfl rfl rfl ⟨[], rfl, List.forall_mem_nil _⟩ (by rw [stage]; rfl)
        (by rw [stage]; rfl)
  | truncated snapshot =>
      have done := @Flush.advance_truncated fmt snapshot (state.db.planned []) _ rfl
      rw [← stage] at done
      rw [State.attemptFlush_of_ok done]
      exact tracked.quietFlush rfl rfl rfl tracked.logged (by rw [stage]; rfl) (by rw [stage]; rfl)

/-! ### Passes -/

/-- **A step of the worker.**  An output that goes to level 0 has to find nothing but the
inputs in the manifest. -/
theorem passStep (tracked : Tracked state) (sturdy : Sturdy sound state)
    (intact : Intact state contents)
    (fits : ∀ snapshot job id, state.passes .worker = .allocated snapshot job id →
      Fits state.db.engine.options (mergedEntries state.db.disk.sst job
        (dropTombstones snapshot state.db.engine.options job)))
    (inTurn : ∀ snapshot job output, state.passes .worker = .written snapshot job output →
      job.outputLevel < 2 ^ 32 ∧ (job.outputLevel = 0 →
        ∀ id ∈ state.db.engine.manifest.ids, id ∈ job.inputs.map SsTable.id)) :
    Tracked (state.attemptPass [] .worker) := by
  have own := sturdy.passes .worker
  have supplied := tracked.supplied
  have booked := tracked.booked
  cases stage : state.passes .worker with
  | idle =>
      cases picked : pickCompaction state.db.engine.version state.db.engine.options with
      | error failure =>
          have failed := @Pass.advance_idle_of_pick fmt (state.db.planned []) (.error failure) picked
          rw [← stage] at failed
          rw [State.attemptPass_of_error failed]
          exact tracked.quietPass rfl rfl rfl rfl (by rw [stage]) (fun _ _ isTask => nomatch isTask)
            (by rw [stage])
      | ok choice =>
          have done := @Pass.advance_idle fmt (state.db.planned []) _ picked
          rw [← stage] at done
          rw [State.attemptPass_of_ok done]
          cases choice with
          | none =>
              exact tracked.quietPass rfl rfl rfl rfl (by rw [stage]; rfl)
                (fun _ _ isTask => by rw [stage] at isTask; cases isTask) (by rw [stage]; rfl)
          | some job =>
              refine tracked.quietPass rfl rfl rfl rfl (by rw [stage]; rfl) ?_ (by rw [stage]; rfl)
              rintro snapshot _ ⟨⟩
              refine ⟨?_, inputs_mem_of_pick picked⟩
              rw [← tracked.depth]
              exact outputLevel_lt_of_pick tracked.depth picked
  | picked snapshot job =>
      rw [stage] at supplied
      by_cases room : Roomy state.db
      · have done := @Pass.advance_picked fmt snapshot job _ (state.db.planned []) _
          (nextTableId_eq rfl room)
        rw [← stage] at done
        rw [State.attemptPass_of_ok done]
        exact tracked.withPass rfl rfl rfl
          (tracked.reserved.reserve room (fresh sturdy) (some .worker)) supplied
          (booked.frame rfl rfl rfl rfl (by rw [stage]; rfl))
      · have failed : (state.passes .worker).advance (state.db.planned []) =
            .error .panic (state.db.planned []) := by
          rw [stage]
          exact bind_of_error (nextTableId_panic room)
        rw [State.attemptPass_of_error failed]
        exact tracked.quietPass rfl rfl rfl rfl (by rw [stage]; rfl)
          (fun _ _ isTask => nomatch isTask) (by rw [stage]; rfl)
  | allocated snapshot job id =>
      rw [stage] at own supplied
      have inputsHeld : ∀ input ∈ job.inputs, Held sound (state.db.planned []).disk.sst input :=
        fun input isInput => (own.1 input isInput).2
      have valid := (mergedEntries_spec inputsHeld
        (dropTombstones snapshot state.db.engine.options job)).2.1
      obtain ⟨file, handle, made, _⟩ := sound.create_ok valid (fits snapshot job id stage)
      have done := @Pass.advance_allocated fmt snapshot job _ _ (state.db.planned []) _
        ((writeOutput_eq sound snapshot id (state.db.planned []) inputsHeld).trans
          (createTable_eq rfl id made))
      rw [← stage] at done
      rw [State.attemptPass_of_ok done]
      exact tracked.quietPass rfl rfl rfl rfl (by rw [stage]; rfl) supplied (by rw [stage]; rfl)
  | written snapshot job output =>
      obtain ⟨short, alone⟩ := inTurn snapshot job output stage
      have isSlot : state.slot (some .worker) = .filled output.id := by
        rw [State.slot, stage]
        rfl
      have isId : state.idOf (some .worker) = some output.id := by
        rw [State.idOf, stage]
        rfl
      have done := @Pass.advance_written fmt snapshot job output (state.db.planned []) _
        (recordCompaction_eq rfl job (unlisted intact isSlot))
      have isTask : (state.passes .worker).task = some (snapshot, job) := by
        rw [stage]
        rfl
      have untaken : ∀ depth, ∀ table ∈ state.flush.entered depth, job.takes table = false := by
        intro depth table member
        cases flushing : state.flush with
        | recorded _ flushed =>
            rw [flushing, Flush.entered] at member
            split at member
            · rw [List.mem_singleton.mp member]
              exact tracked.untaken (show state.idOf none = some flushed.id by
                rw [State.idOf, flushing]; rfl) isTask
            · cases member
        | _ => rw [flushing] at member; cases member
      rw [stage] at supplied booked
      rw [← stage] at done
      rw [State.attemptPass_of_ok done]
      refine tracked.withPass rfl rfl rfl ?_ supplied
        ((booked.recordPass (supplied snapshot job rfl).1 short alone
          (tracked.untaken isId isTask) untaken).frame rfl rfl rfl rfl rfl)
      have sameId : (Pass.recorded snapshot job output).id = state.idOf (some .worker) := isId.symm
      rw [sameId, Function.update_eq_self]
      exact tracked.reserved
  | recorded snapshot job output =>
      rw [stage] at own supplied booked
      have inside : job.outputLevel < (state.db.planned []).engine.version.levels.length :=
        (supplied snapshot job rfl).1.trans_eq tracked.depth.symm
      have isId : state.idOf (some .worker) = some output.id := by
        rw [State.idOf, stage]
        rfl
      have done := @Pass.advance_recorded fmt snapshot job output (state.db.planned []) _ _
        (installCompaction_eq inside output)
        (removeInputs_eq (fun input isInput => (own.1 input isInput).1) _)
      rw [← stage] at done
      rw [State.attemptPass_of_ok done]
      refine tracked.withPass rfl (length_levels_installed _ _ _) rfl ?_
        (fun _ _ isTask => nomatch isTask) ((booked.install inside).frame rfl rfl rfl rfl rfl)
      refine tracked.reserved.release isId fun table member => ?_
      rcases (mem_tables_installed _ _ _ inside).mp member with rfl | ⟨old, _⟩
      · exact .inl rfl
      · exact .inr old

/-! ### Openings -/

theorem opened {options : Options} {disk : Disk fmt} {engine : Engine fmt}
    (positive : 1 ≤ options.maxLevels) (logged : Logged disk.wal)
    (isOpen : openWith options disk = .ok engine) :
    Tracked (State.start ⟨disk, engine, []⟩) := by
  obtain ⟨operations, replayed, _⟩ := logged.replay
  obtain ⟨_, version, loaded, _⟩ := openWith_cases isOpen
  obtain ⟨placed, lands, opens⟩ := exists_lands_of_loadTables loaded
  have inside : ∀ item ∈ placed, item.2 < options.maxLevels :=
    fun item member => lands.inside positive member
  have isEngine := openWith_of_lands (manifest_of_openWith isOpen) lands inside opens replayed
  rw [isOpen] at isEngine
  have same := Except.ok.inj isEngine
  have nobody : ∀ owner, (State.start (⟨disk, engine, []⟩ : Db fmt)).idOf owner = none := by
    intro owner
    cases owner <;> rfl
  have isOptions : engine.options = options := congrArg Engine.options same
  have isVersion : engine.version = rebuilt options.maxLevels placed := congrArg Engine.version same
  refine
    { positive := ?_
      depth := ?_
      logged := logged
      single := rfl
      reserved := ⟨?_, ?_, ?_⟩
      supplied := fun _ _ isTask => nomatch isTask
      booked := ⟨placed, placed.tablesAt, ?_, ?_, fun depth => (List.append_nil _).symm⟩ }
  · change 1 ≤ engine.options.maxLevels
    rw [isOptions]
    exact positive
  · change engine.version.levels.length = engine.options.maxLevels
    rw [isOptions, isVersion, length_levels_rebuilt]
  · intro owner id isId
    rw [nobody] at isId
    cases isId
  · intro owner id isId
    rw [nobody] at isId
    cases isId
  · intro owner other id isId
    rw [nobody] at isId
    cases isId
  · change Lands engine.options.maxLevels engine.manifest.tables placed
    rw [isOptions]
    exact lands
  · change Arranges engine.version placed.tablesAt
    rw [isVersion]
    exact .of_rebuilt positive inside

/-- **Reopening reconstructs the version** of a state in which nothing is under way. -/
theorem reopens (tracked : Tracked state) (sturdy : Sturdy sound state)
    (intact : Intact state contents) (noFlush : state.flush = .idle)
    (noPass : state.passes .worker = .idle) :
    ∃ engine, openWith state.db.engine.options state.db.disk = .ok engine ∧
      engine.version = state.db.engine.version := by
  obtain ⟨operations, replayed, _⟩ := tracked.logged.replay
  obtain ⟨durable, guarded⟩ := intact.guarded
  obtain ⟨placed, held, lands, arranges, entered⟩ := tracked.booked
  rw [noFlush, noPass] at entered
  have isHeld : placed.tablesAt = held := by
    funext depth
    exact (entered depth).trans (List.append_nil _)
  subst isHeld
  rw [guarded.tables] at lands
  have inside : ∀ item ∈ placed, item.2 < state.db.engine.options.maxLevels :=
    fun item member => lands.inside tracked.positive member
  have opens : ∀ item ∈ placed, Opens state.db.disk item.1 := by
    intro item member
    refine (sturdy.rooted.held item.1 (Version.mem_tables_iff.mpr ⟨item.2, ?_⟩)).opens
    exact arranges.mem_level.mpr (Placement.mem_tablesAt.mpr member)
  refine ⟨_, openWith_of_lands guarded.recover_eq lands inside opens replayed, ?_⟩
  refine (Arranges.of_rebuilt tracked.positive inside).unique arranges ?_
  rw [length_levels_rebuilt, tracked.depth]

end Tracked

/-! ## Whole runs -/

/-- A step of the user or of the worker in which no file operation fails, or a reopening
with at least one level. -/
def Happening.Quiet : Happening → Prop
  | .act event plan => plan = [] ∧ event ≠ .pass .caller
  | .crash options => 1 ≤ options.maxLevels

/-- A table that is created fits its format.  The number of a level that is recorded fits
its field, and an output that is recorded for level 0 finds nothing but its inputs in the
manifest. -/
def Happening.InTurn (Fits : Options → List (Key × Entry) → Prop) : Happening → State fmt → Prop
  | .act .flush _, state => ∀ snapshot id, state.flush = .allocated snapshot id →
      Fits state.db.engine.options snapshot
  | .act (.pass thread) _, state =>
      (∀ snapshot job id, state.passes thread = .allocated snapshot job id →
        Fits state.db.engine.options (mergedEntries state.db.disk.sst job
          (dropTombstones snapshot state.db.engine.options job))) ∧
      ∀ snapshot job output, state.passes thread = .written snapshot job output →
        job.outputLevel < 2 ^ 32 ∧ (job.outputLevel = 0 →
          ∀ id ∈ state.db.engine.manifest.ids, id ∈ job.inputs.map SsTable.id)
  | _, _ => True

section Runs

variable {sound : fmt.Sound Fits} {state next : State fmt} {contents : Contents fmt}
  {happening : Happening}

theorem Happening.Quiet.clean (quiet : happening.Quiet) : happening.Clean state := by
  cases happening with
  | crash options => trivial
  | act event plan =>
      obtain ⟨rfl, _⟩ := quiet
      cases event with
      | flush => exact fun _ => List.forall_mem_nil _
      | pass thread => exact fun _ => List.forall_mem_nil _
      | _ => trivial

/-- A directory that is opened again has handed out the ids of its files durably. -/
theorem Tracked.orderly (tracked : Tracked state) (intact : Intact state contents)
    (inTurn : happening.InTurn Fits state) : happening.Orderly Fits state := by
  cases happening with
  | crash options =>
      intro engine isOpen
      obtain ⟨durable, guarded⟩ := intact.guarded
      obtain ⟨operations, replayed, keyed⟩ := tracked.logged.replay
      have isManifest : durable = engine.manifest :=
        Except.ok.inj (guarded.recover_eq.symm.trans (manifest_of_openWith isOpen))
      have isMemtable : engine.memtable = applyAll operations := by
        have replayed' : (Wal.openLog (some state.db.disk.wal)).replay = .ok operations := replayed
        unfold openWith at isOpen
        rw [replayed'] at isOpen
        split at isOpen
        · cases isOpen
        · split at isOpen <;> cases isOpen
          rfl
      rw [← isManifest, isMemtable]
      exact ⟨guarded.used, applyAll_keys keyed⟩
  | act event plan =>
      cases event with
      | flush => exact inTurn
      | pass thread => exact inTurn.1
      | _ => trivial

/-- **A step keeps the state tracked.** -/
theorem Tracked.step (tracked : Tracked state) (sturdy : Sturdy sound state)
    (intact : Intact state contents) (quiet : happening.Quiet)
    (inTurn : happening.InTurn Fits state) (stepped : happening.step state = some next) :
    Tracked next := by
  cases happening with
  | crash options =>
      rw [Happening.step] at stepped
      split at stepped
      · rename_i engine isOpen
        cases stepped
        exact .opened quiet tracked.logged isOpen
      · cases stepped
  | act event plan =>
      obtain ⟨rfl, single⟩ := quiet
      cases stepped
      cases event with
      | put key value => exact tracked.write fun _ isWrite => Event.operation_valid isWrite
      | delete key => exact tracked.write fun _ isWrite => Event.operation_valid isWrite
      | get key => exact tracked.read key
      | flush => exact tracked.flushStep sturdy intact inTurn
      | pass thread =>
          cases thread with
          | worker => exact tracked.passStep sturdy intact inTurn.1 inTurn.2
          | caller => exact absurd rfl single

theorem Tracked.survive {happenings : List Happening} {final : State fmt}
    {contents' : Contents fmt} (tracked : Tracked state) (sturdy : Sturdy sound state)
    (intact : Intact state contents) (quiet : ∀ happening ∈ happenings, happening.Quiet)
    (inTurn : AllHappenings (Happening.InTurn Fits) happenings state)
    (survived : survive happenings (state, contents) = some (final, contents')) :
    Tracked final ∧ Sturdy sound final ∧ Intact final contents' := by
  induction happenings generalizing state contents with
  | nil =>
      cases survived
      exact ⟨tracked, sturdy, intact⟩
  | cons happening rest ih =>
      obtain ⟨quietHere, quietRest⟩ := List.forall_mem_cons.mp quiet
      rw [LsmStore.survive] at survived
      cases stepped : happening.step state with
      | none =>
          rw [stepped] at survived
          cases survived
      | some next =>
          rw [stepped] at survived
          exact ih (tracked.step sturdy intact quietHere inTurn.1 stepped)
            (sturdy.step (tracked.orderly intact inTurn.1) stepped)
            (intact.step quietHere.clean stepped) quietRest (inTurn.2 next stepped) survived

end Runs

/-- **Reopening reconstructs the version.**  A new database is opened, with at least one
level, and then the steps of writes, reads and flushes and the steps of the worker's
passes follow one another in any order; the process may stop at any time and open the
directory again, with any options of at least one level.  No file operation fails.  Asked
is that every step comes in turn (`Happening.InTurn`).  Once nothing is under way, the
version that opening the directory rebuilds is the version in memory: the same tables in
the same order in every level. -/
theorem reopening_reconstructs (sizing : BloomSizing) {options : Options}
    (positive : 1 ≤ options.maxLevels) {start : Db (byteTables sizing)}
    (opened : openNew (byteTables sizing) options = .ok start) {happenings : List Happening}
    (quiet : ∀ happening ∈ happenings, happening.Quiet)
    (inTurn : AllHappenings (Happening.InTurn (TableFits sizing)) happenings (State.start start))
    {state : State (byteTables sizing)} {contents : Contents (byteTables sizing)}
    (reached : survive happenings (State.start start, fun _ => none) = some (state, contents))
    (noFlush : state.flush = .idle) (noPass : state.passes .worker = .idle) :
    ∃ engine, openWith state.db.engine.options state.db.disk = .ok engine ∧
      engine.version = state.db.engine.version := by
  have intact := intact_new opened
  rw [openNew_eq] at opened
  obtain rfl : Db.new (byteTables sizing) options = start := Except.ok.inj opened
  have tracked : Tracked (State.start (Db.new (byteTables sizing) options)) :=
    .opened positive ⟨[], rfl, List.forall_mem_nil _⟩ (openWith_empty _ options)
  obtain ⟨tracked', sturdy', intact'⟩ := tracked.survive
    (rooted_new (byteTables_sound sizing) options).start intact quiet inTurn reached
  exact tracked'.reopens sturdy' intact' noFlush noPass

/-- Steps of which no file operation fails. -/
def quietly (events : List Event) : List Happening := events.map fun event => .act event []

theorem quiet_of_quietly {events : List Event} (single : Event.pass .caller ∉ events) :
    ∀ happening ∈ quietly events, happening.Quiet := by
  intro happening member
  obtain ⟨event, isEvent, rfl⟩ := List.mem_map.mp member
  refine ⟨rfl, ?_⟩
  rintro rfl
  exact single isEvent

/-- A put and the steps of its flush, with a look of the worker in between. -/
def flushedRun : List Event :=
  [.put [97] [49], .flush, .flush, .pass .worker, .flush, .flush, .flush, .flush, .flush]

theorem flushedRun_inTurn :
    AllHappenings (Happening.InTurn (TableFits smallSizing)) (quietly flushedRun)
      (State.start (Db.new (byteTables smallSizing) tinyOptions)) := by
  refine ⟨trivial, ?_⟩
  rintro _ ⟨⟩
  refine ⟨nofun, ?_⟩
  rintro _ ⟨⟩
  refine ⟨nofun, ?_⟩
  rintro _ ⟨⟩
  refine ⟨⟨nofun, nofun⟩, ?_⟩
  rintro _ ⟨⟩
  -- Only here a table is created.
  refine ⟨by rintro _ _ ⟨⟩; exact tinyTable_fits, ?_⟩
  rintro _ ⟨⟩
  refine ⟨nofun, ?_⟩
  rintro _ ⟨⟩
  refine ⟨nofun, ?_⟩
  rintro _ ⟨⟩
  refine ⟨nofun, ?_⟩
  rintro _ ⟨⟩
  exact ⟨nofun, fun _ _ => trivial⟩

/-- The ids of the tables of each level. -/
def Version.ids (version : Version fmt) : List (List UInt64) :=
  version.levels.map fun tables => tables.map SsTable.id

/-- The flushed table is in level 0 of the reopened engine. -/
theorem reopening_reconstructs_flushed :
    ∃ start state contents engine,
      openNew (byteTables smallSizing) tinyOptions = .ok start ∧
      survive (quietly flushedRun) (State.start start, fun _ => none) = some (state, contents) ∧
      openWith state.db.engine.options state.db.disk = .ok engine ∧
      engine.version.ids = [[1], []] := by
  have evaluated : (survive (quietly flushedRun)
      (State.start (Db.new (byteTables smallSizing) tinyOptions), fun _ => none)).map
        (fun reached =>
          (reached.1.flush.isIdle && (reached.1.passes .worker).task.isNone,
            reached.1.db.engine.version.ids)) = some (true, [[1], []]) := by
    decide +kernel
  obtain ⟨⟨state, contents⟩, survived, seen⟩ := Option.map_eq_some_iff.mp evaluated
  obtain ⟨⟨noFlush, noPass⟩, ids⟩ := by
    simpa only [Prod.mk.injEq, Bool.and_eq_true, Option.isNone_iff_eq_none] using seen
  obtain ⟨engine, isOpen, same⟩ := reopening_reconstructs smallSizing (by decide)
    (openNew_eq _ tinyOptions) (quiet_of_quietly (by decide)) flushedRun_inTurn survived
    (Flush.isIdle_iff.mp noFlush) (Pass.task_eq_none_iff.mp noPass)
  refine ⟨_, state, contents, engine, openNew_eq _ _, survived, isOpen, ?_⟩
  rw [same]
  exact ids

/-- Options of a single level, in which three tables are compacted. -/
def loneOptions : Options := { tinyOptions with maxLevels := 1, l0CompactionTrigger := 3 }

/-- A put, and the steps of the flush of the memtable. -/
def putAndFlush (key value : Bytes) : List Event := .put key value :: List.replicate 7 .flush

/-- A flush comes between the pick and the record of a pass.  The worker then looks once
more, for the request that the flush has made, and finds nothing to do. -/
def overtakenRun : List Event :=
  putAndFlush [97] [49] ++ putAndFlush [98] [49] ++ putAndFlush [99] [49] ++
    List.replicate 3 (.pass .worker) ++ putAndFlush [97] [50] ++ List.replicate 3 (.pass .worker)

/-- **Reopening swaps two tables.**  There is a single level.  A pass merges tables 1 to 3
into table 4; before it enters that into the manifest, a flush enters table 5.  In memory
the flushed table comes first, after reopening the older one does. -/
theorem reopening_swaps_tables :
    ∃ start state contents engine,
      openNew (byteTables smallSizing) loneOptions = .ok start ∧
      (∀ happening ∈ quietly overtakenRun, happening.Quiet) ∧
      survive (quietly overtakenRun) (State.start start, fun _ => none) = some (state, contents) ∧
      state.flush.isIdle = true ∧ (state.passes .worker).task.isNone = true ∧
      openWith state.db.engine.options state.db.disk = .ok engine ∧
      state.db.engine.version.ids = [[5, 4]] ∧ engine.version.ids = [[4, 5]] := by
  have evaluated : (survive (quietly overtakenRun)
      (State.start (Db.new (byteTables smallSizing) loneOptions), fun _ => none)).map
        (fun reached =>
          (reached.1.flush.isIdle && (reached.1.passes .worker).task.isNone,
            reached.1.db.engine.version.ids,
            (openWith reached.1.db.engine.options reached.1.db.disk).toOption.map
              fun engine => engine.version.ids)) =
      some (true, [[5, 4]], some [[4, 5]]) := by
    decide +kernel
  obtain ⟨⟨state, contents⟩, survived, seen⟩ := Option.map_eq_some_iff.mp evaluated
  obtain ⟨⟨noFlush, noPass⟩, ids, reopened⟩ := by
    simpa only [Prod.mk.injEq, Bool.and_eq_true] using seen
  obtain ⟨engine, isOpen, swapped⟩ := Option.map_eq_some_iff.mp reopened
  refine ⟨_, state, contents, engine, openNew_eq _ _, quiet_of_quietly (by decide), survived,
    noFlush, noPass, ?_, ids, swapped⟩
  cases opened : openWith state.db.engine.options state.db.disk with
  | error failure => rw [opened] at isOpen; cases isOpen
  | ok other => rw [opened] at isOpen; exact congrArg Except.ok (Option.some.inj isOpen)

end LsmStore
