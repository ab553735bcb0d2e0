import LsmStore.FlushCrash

/-!
# A process that stops in a compaction

A compaction pass enters its output into the manifest and then removes its inputs one
record at a time, the newest first.  A process that stops in between leaves a manifest
that lists the output together with the inputs not removed yet.  The version rebuilt
from it reads the inputs that are left of level 0 before the output, and those that are
left in the output's level before or behind it, as their smallest keys say.

So an older entry may come back: `compaction_crash_exact` says for every key exactly
when it does.  The newest entry must lie in an input that is gone, an older one that
reads differently in an input that is left, and the output must not be read before that
input.  `compaction_crash_uncovers` is the smallest example.
-/

set_option autoImplicit false

namespace LsmStore

open Foundation

variable {fmt : TableFormat} {Fits : Options → List (Key × Entry) → Prop}

/-! ## What a stopped pass wrote -/

/-- The directory that an action leaves, however it ends. -/
def diskAfter {α : Type} (action : Action fmt α) (db : Db fmt) : Disk fmt :=
  match action db with
  | .ok _ after => after.disk
  | .error _ after => after.disk

section DiskAfter

variable {α β : Type} {first : Action fmt α} {next : α → Action fmt β} {db mid : Db fmt}

theorem diskAfter_bind_of_ok {value : α} (done : first db = .ok value mid) :
    diskAfter (first >>= next) db = diskAfter (next value) mid := by
  rw [diskAfter, bind_of_ok done]
  rfl

theorem diskAfter_bind_of_error {failure : Failure} (failed : first db = .error failure mid) :
    diskAfter (first >>= next) db = mid.disk := by
  rw [diskAfter, bind_of_error failed]

/-- What follows an action may leave the directory alone. -/
theorem diskAfter_bind_of_quiet
    (quiet : ∀ value mid, diskAfter (next value) mid = mid.disk) :
    diskAfter (first >>= next) db = diskAfter first db := by
  cases ran : first db with
  | ok value mid =>
      rw [diskAfter_bind_of_ok ran, quiet, diskAfter, ran]
  | error failure mid =>
      rw [diskAfter_bind_of_error ran, diskAfter, ran]

end DiskAfter

/-- The plan of a pass that stops once `count` records are in the manifest.  The table
file is written after the first of them. -/
def stopAfter : Nat → List Verdict
  | 0 => [.fail 0]
  | count + 1 => .done :: .done :: (List.replicate count .done ++ [.fail 0])

theorem diskAfter_removeTables (ids : List UInt64) (disk : Disk fmt) (engine : Engine fmt)
    (count : Nat) :
    diskAfter (removeTables ids) ⟨disk, engine, List.replicate count .done ++ [.fail 0]⟩ =
      { disk with manifest := disk.manifest ++ manifestLog ((ids.take count).map .removeTable) } := by
  induction ids generalizing disk engine count with
  | nil => simp [removeTables, diskAfter, manifestLog, pure, EStateM.pure]
  | cons id rest ih =>
      cases count with
      | zero => rfl
      | succ count =>
          have step : diskAfter (removeTables (id :: rest)) (⟨disk, engine,
                List.replicate (count + 1) .done ++ [.fail 0]⟩ : Db fmt) =
              diskAfter (removeTables rest)
                ⟨{ disk with manifest := disk.manifest ++ (ManifestRecord.removeTable id).encode },
                  { engine with
                    manifest :=
                      { engine.manifest with
                        tables := engine.manifest.tables.filter fun table => table.1 != id } },
                  List.replicate count .done ++ [.fail 0]⟩ := rfl
          rw [step, ih]
          simp [manifestLog]

theorem diskAfter_recordCompaction {id : UInt64} (job : CompactionJob fmt) {engine : Engine fmt}
    (unlisted : engine.manifest.lists id = false) (disk : Disk fmt) (count : Nat) :
    diskAfter (recordCompaction id job)
        ⟨disk, engine, List.replicate count .done ++ [.fail 0]⟩ =
      { disk with
        manifest := disk.manifest ++ manifestLog
          ((.addTable id (UInt32.ofNat job.outputLevel) ::
            (job.inputs.map SsTable.id).map .removeTable).take count) } := by
  cases count with
  | zero =>
      have failed : addTable id (UInt32.ofNat job.outputLevel)
          (⟨disk, engine, [.fail 0]⟩ : Db fmt) =
          .error ioFailure ⟨{ disk with manifest := disk.manifest ++ [] }, engine, []⟩ := by
        refine (bind_of_ok (show current (⟨disk, engine, [.fail 0]⟩ : Db fmt) = .ok _ _ from
          rfl)).trans ?_
        dsimp only
        rw [if_neg (by simp [unlisted])]
        rfl
      exact diskAfter_bind_of_error failed
  | succ count =>
      have added : addTable id (UInt32.ofNat job.outputLevel)
          (⟨disk, engine, .done :: (List.replicate count .done ++ [.fail 0])⟩ : Db fmt) =
          .ok () ⟨{ disk with manifest := disk.manifest ++
              (ManifestRecord.addTable id (UInt32.ofNat job.outputLevel)).encode },
            { engine with
              manifest := engine.manifest.added id (UInt32.ofNat job.outputLevel) },
            List.replicate count .done ++ [.fail 0]⟩ := by
        refine (bind_of_ok (show current (⟨disk, engine, .done ::
          (List.replicate count .done ++ [.fail 0])⟩ : Db fmt) = .ok _ _ from rfl)).trans ?_
        dsimp only
        rw [if_neg (by simp [unlisted])]
        rfl
      refine (diskAfter_bind_of_ok added).trans ?_
      rw [diskAfter_removeTables]
      simp [manifestLog]

theorem createTable_of_done {id : UInt64} {entries : List (Key × Entry)} {disk : Disk fmt}
    {engine : Engine fmt} {rest : List Verdict} {file : fmt.File} {handle : fmt.Handle}
    (created : fmt.create engine.options entries = .ok (file, handle)) :
    createTable id entries ⟨disk, engine, .done :: rest⟩ =
      .ok ⟨id, handle⟩ ⟨disk.withTable id file, engine, rest⟩ := by
  rw [createTable, created]
  rfl

theorem writeOutput_of_done (sound : fmt.Sound Fits) {snapshot : Version fmt}
    {job : CompactionJob fmt} (outputId : UInt64) (file : fmt.File) (handle : fmt.Handle)
    {disk : Disk fmt} {engine : Engine fmt} {rest : List Verdict}
    (held : ∀ input ∈ job.inputs, Held sound disk.sst input)
    (created : fmt.create engine.options (mergedEntries disk.sst job
      (dropTombstones snapshot engine.options job)) = .ok (file, handle)) :
    writeOutput snapshot job outputId ⟨disk, engine, .done :: rest⟩ =
      .ok ⟨outputId, handle⟩ ⟨disk.withTable outputId file, engine, rest⟩ :=
  (writeOutput_eq sound snapshot outputId ⟨disk, engine, .done :: rest⟩ held).trans
    (createTable_of_done created)

/-- Installing an output and cleaning up writes nothing. -/
theorem diskAfter_install {snapshot : Version fmt} {job : CompactionJob fmt}
    (inSnapshot : ∀ input ∈ job.inputs, input ∈ snapshot.tablesNewestFirst) (output : SsTable fmt)
    (db : Db fmt) :
    diskAfter (installCompaction job output >>= fun _ => removeInputs snapshot job.inputs) db =
      db.disk := by
  refine (diskAfter_bind_of_quiet fun _ mid => ?_).trans ?_
  · rw [diskAfter, removeInputs_eq inSnapshot]
  · unfold diskAfter installCompaction
    cases applyCompaction db.engine.version job output <;> rfl

section Stopped

variable {sound : fmt.Sound Fits} {db : Db fmt} {job : CompactionJob fmt} {file : fmt.File}
  {handle : fmt.Handle}

/-- A pass that stops before its first record leaves the directory as it was. -/
theorem stoppedIn_compactOnce_zero
    (picked : pickCompaction db.engine.version db.engine.options = .ok (some job))
    (room : db.engine.manifest.nextTableId.toNat + 1 ≤ u64Max) :
    db.stoppedIn compactOnce (stopAfter 0) = db.disk := by
  obtain ⟨disk, engine, faults⟩ := db
  have failed : nextTableId (⟨disk, engine, [.fail 0]⟩ : Db fmt) =
      .error ioFailure ⟨{ disk with manifest := disk.manifest ++ [] },
        { engine with manifest := engine.manifest.allocated }, []⟩ := by
    refine (bind_of_ok (show current (⟨disk, engine, [.fail 0]⟩ : Db fmt) = .ok _ _ from
      rfl)).trans ?_
    dsimp only
    rw [if_neg (Nat.not_lt.mpr room)]
    rfl
  change diskAfter compactOnce (⟨disk, engine, [.fail 0]⟩ : Db fmt) = disk
  refine (diskAfter_bind_of_ok (show current (⟨disk, engine, [.fail 0]⟩ : Db fmt) = .ok _ _ from
    rfl)).trans ?_
  dsimp only
  rw [picked]
  refine (diskAfter_bind_of_error failed).trans ?_
  dsimp only
  rw [List.append_nil]

/-- **What a stopped pass leaves:** the output's file, and the first records. -/
theorem stoppedIn_compactOnce_succ
    (inputsHeld : ∀ input ∈ job.inputs, Held sound db.disk.sst input)
    (inVersion : ∀ input ∈ job.inputs, input ∈ db.engine.version.tablesNewestFirst)
    (picked : pickCompaction db.engine.version db.engine.options = .ok (some job))
    (room : db.engine.manifest.nextTableId.toNat + 1 ≤ u64Max)
    (unlisted : db.engine.manifest.lists db.engine.manifest.nextTableId = false)
    (created : fmt.create db.engine.options (mergedEntries db.disk.sst job (db.drops job)) =
      .ok (file, handle)) (count : Nat) :
    db.stoppedIn compactOnce (stopAfter (count + 1)) =
      { db.disk.withTable db.engine.manifest.nextTableId file with
        manifest := db.disk.manifest ++ manifestLog
          ((compactionRecords db.engine.manifest.nextTableId job).take (count + 1)) } := by
  obtain ⟨disk, engine, faults⟩ := db
  dsimp only at inputsHeld inVersion picked room unlisted created ⊢
  generalize isRest : List.replicate count Verdict.done ++ [.fail 0] = rest
  have allocated : nextTableId (⟨disk, engine, .done :: .done :: rest⟩ : Db fmt) =
      .ok engine.manifest.nextTableId ⟨{ disk with manifest := disk.manifest ++
          (ManifestRecord.setNextTableId (engine.manifest.nextTableId + 1)).encode },
        { engine with manifest := engine.manifest.allocated }, .done :: rest⟩ := by
    refine (bind_of_ok (show current (⟨disk, engine, .done :: .done :: rest⟩ : Db fmt) = .ok _ _
      from rfl)).trans ?_
    dsimp only
    rw [if_neg (Nat.not_lt.mpr room)]
    rfl
  change diskAfter compactOnce (⟨disk, engine, stopAfter (count + 1)⟩ : Db fmt) = _
  rw [stopAfter, isRest]
  refine (diskAfter_bind_of_ok (show current (⟨disk, engine, .done :: .done :: rest⟩ : Db fmt) =
    .ok _ _ from rfl)).trans ?_
  dsimp only
  rw [picked]
  refine (diskAfter_bind_of_ok allocated).trans ?_
  refine (diskAfter_bind_of_ok (writeOutput_of_done sound _ file handle ?_ ?_)).trans ?_
  · exact inputsHeld
  · exact created
  refine (diskAfter_bind_of_quiet fun _ _ => diskAfter_install inVersion _ _).trans ?_
  rw [← isRest]
  refine (diskAfter_recordCompaction job ?_ _ count).trans ?_
  · exact (Manifest.lists_allocated _ _).trans unlisted
  · simp [compactionRecords, manifestLog, Disk.withTable]

end Stopped

/-! ## The version rebuilt from part of an edit -/

namespace Version

/-- The tables of the levels above a level. -/
def above (version : Version fmt) (depth : Nat) : List (SsTable fmt) :=
  (version.levels.take depth).flatten

theorem front_append_seat (version : Version fmt) (depth : Nat) :
    version.front depth ++ version.seat depth = version.above depth ++ version.level depth := by
  cases depth with
  | zero => simp [front, seat, above]
  | succ depth => rfl

theorem above_eq_flatMap {version : Version fmt} {depth : Nat}
    (inside : depth ≤ version.levels.length) :
    version.above depth = (List.range depth).flatMap version.level := by
  rw [above, levels_eq, ← List.map_take, List.take_range, Nat.min_eq_left inside, List.flatMap_def]

theorem back_eq_flatMap (version : Version fmt) (depth : Nat) :
    version.back depth = (List.range' (depth + 1) (version.levels.length - (depth + 1))).flatMap
      version.level := by
  rw [back, levels_eq, ← List.map_drop, List.range_eq_range', List.drop_range', List.flatMap_def,
    List.length_map, List.length_range', Nat.zero_add, Nat.mul_one]

theorem tables_eq_above {version : Version fmt} {depth : Nat}
    (inside : depth < version.levels.length) :
    version.tablesNewestFirst =
      version.above depth ++ version.level depth ++ version.back depth := by
  rw [tables_split inside, front_append_seat]

theorem level_sublist (version : Version fmt) (depth : Nat) :
    (version.level depth).Sublist version.tablesNewestFirst := by
  by_cases inside : depth < version.levels.length
  · rw [tables_eq_above inside]
    exact (List.sublist_append_right _ _).trans (List.sublist_append_left _ _)
  · rw [level_of_le (not_lt.mp inside)]
    exact List.nil_sublist _

end Version

/-- The job whose inputs are the first ones of another. -/
def CompactionJob.cut (job : CompactionJob fmt) (count : Nat) : CompactionJob fmt :=
  ⟨job.inputs.take count, job.outputLevel⟩

@[simp] theorem CompactionJob.cut_outputLevel (job : CompactionJob fmt) (count : Nat) :
    (job.cut count).outputLevel = job.outputLevel := rfl

/-- A placement with the output of a job and without its inputs. -/
def Placement.installed (placed : Placement fmt) (job : CompactionJob fmt) (output : SsTable fmt) :
    Placement fmt :=
  (placed ++ [(output, job.outputLevel)]).filter fun item => !job.takes item.1

theorem lookupIn_append (content : SsTable fmt → List (Key × Entry))
    (first second : List (SsTable fmt)) (key : Key) :
    lookupIn content (first ++ second) key =
      (lookupIn content first key).or (lookupIn content second key) :=
  List.findSome?_append

section Rebuilding

variable {content : SsTable fmt → List (Key × Entry)} {version : Version fmt}
  {placed : Placement fmt} {job : CompactionJob fmt} {output : SsTable fmt}

/-- A level other than that of the output reads as its tables that are left. -/
theorem lookupIn_level_rebuilt (levelled : WellLevelled content version)
    (places : Places placed version) (fresh : job.takes output = false) {depth : Nat}
    (inside : depth < version.levels.length) (other : depth ≠ job.outputLevel) (key : Key) :
    lookupIn content
        ((rebuilt version.levels.length (placed.installed job output)).level depth) key =
      lookupIn content (job.keeps (version.level depth)) key := by
  have tables : (placed.installed job output).tablesAt depth = job.keeps (placed.tablesAt depth) := by
    rw [Placement.installed, Placement.tablesAt_install placed fresh, if_neg other, List.append_nil]
  cases depth with
  | zero =>
      rw [level_zero_rebuilt inside, tables, places.top, CompactionJob.keeps, List.filter_reverse,
        List.reverse_reverse]
      rfl
  | succ depth =>
      rw [level_succ_rebuilt inside, tables]
      have perm : (job.keeps (version.level (depth + 1))).Perm
          (sortBySmallest (job.keeps (placed.tablesAt (depth + 1)))) :=
        ((places.level_perm (depth + 1)).symm.filter _).trans (sortBySmallest_perm _).symm
      have single : AtMostOneHit (entryIn content key) (job.keeps (version.level (depth + 1))) :=
        (Admissible.seat_single levelled (depth + 1) key).sublist List.filter_sublist
      exact (single.findSome?_perm perm).symm

/-- So do several such levels. -/
theorem lookupIn_levels_rebuilt (levelled : WellLevelled content version)
    (places : Places placed version) (fresh : job.takes output = false) {depths : List Nat}
    (inside : ∀ depth ∈ depths, depth < version.levels.length ∧ depth ≠ job.outputLevel)
    (key : Key) :
    lookupIn content (depths.flatMap
        (rebuilt version.levels.length (placed.installed job output)).level) key =
      lookupIn content (job.keeps (depths.flatMap version.level)) key := by
  rw [CompactionJob.keeps, List.filter_flatMap, lookupIn, lookupIn, findSome?_flatMap,
    findSome?_flatMap]
  refine findSome?_congr ?_
  intro depth member
  obtain ⟨isLevel, other⟩ := inside depth member
  exact lookupIn_level_rebuilt levelled places fresh isLevel other key

/-- **What the rebuilt version reads:** the tables left above the output's level, that
level, and the tables behind it. -/
theorem lookupIn_rebuilt (levelled : WellLevelled content version)
    (places : Places placed version) (fresh : job.takes output = false)
    (inside : job.outputLevel < version.levels.length)
    (behind : job.keeps (version.back job.outputLevel) = version.back job.outputLevel) (key : Key) :
    lookupIn content
        (rebuilt version.levels.length (placed.installed job output)).tablesNewestFirst key =
      ((lookupIn content (job.keeps (version.above job.outputLevel)) key).or
        (lookupIn content ((rebuilt version.levels.length
          (placed.installed job output)).level job.outputLevel) key)).or
        (lookupIn content (version.back job.outputLevel) key) := by
  have inside' : job.outputLevel <
      (rebuilt version.levels.length (placed.installed job output)).levels.length := by
    rw [length_levels_rebuilt]
    exact inside
  rw [Version.tables_eq_above inside', lookupIn_append, lookupIn_append]
  congr 1
  · congr 1
    rw [Version.above_eq_flatMap (le_of_lt inside'), Version.above_eq_flatMap (le_of_lt inside)]
    refine lookupIn_levels_rebuilt levelled places fresh ?_ key
    intro depth member
    have less := List.mem_range.mp member
    omega
  · rw [← behind, Version.back_eq_flatMap, Version.back_eq_flatMap, length_levels_rebuilt]
    refine lookupIn_levels_rebuilt levelled places fresh ?_ key
    intro depth member
    have range := List.mem_range'_1.mp member
    omega

/-- An output for level 0 is rebuilt as its newest table. -/
theorem lookupIn_place_zero (places : Places placed version) (fresh : job.takes output = false)
    (inside : 0 < version.levels.length) (top : job.outputLevel = 0) (key : Key) :
    lookupIn content ((rebuilt version.levels.length
        (placed.installed job output)).level job.outputLevel) key =
      (entryIn content key output).or
        (lookupIn content (job.keeps (version.level job.outputLevel)) key) := by
  rw [top, level_zero_rebuilt inside, Placement.installed,
    Placement.tablesAt_install placed fresh, if_pos top.symm, places.top, List.reverse_append,
    CompactionJob.keeps, List.filter_reverse, List.reverse_reverse, List.reverse_singleton,
    lookupIn, List.findSome?_append, List.findSome?_singleton]
  rfl

/-- The tables that the output joins in a deeper level, as they are listed. -/
theorem level_rebuilt_output (fresh : job.takes output = false)
    (inside : job.outputLevel < version.levels.length) (deep : 1 ≤ job.outputLevel) :
    (rebuilt version.levels.length (placed.installed job output)).level job.outputLevel =
      sortBySmallest (job.keeps (placed.tablesAt job.outputLevel) ++ [output]) := by
  have tables : (placed.installed job output).tablesAt job.outputLevel =
      job.keeps (placed.tablesAt job.outputLevel) ++ [output] := by
    rw [Placement.installed, Placement.tablesAt_install placed fresh, if_pos rfl]
  obtain ⟨depth, isDepth⟩ : ∃ depth, job.outputLevel = depth + 1 := ⟨job.outputLevel - 1, by omega⟩
  rw [isDepth] at inside tables ⊢
  rw [level_succ_rebuilt inside, tables]

section Joined

variable (levelled : WellLevelled content version) (places : Places placed version)
  (unused : ∀ table ∈ version.tablesNewestFirst, table.id ≠ output.id)

include levelled places

theorem joined_single (depth : Nat) (deep : 1 ≤ depth) (key : Key) :
    AtMostOneHit (entryIn content key) (job.keeps (placed.tablesAt depth)) := by
  obtain ⟨depth, rfl⟩ : ∃ less, depth = less + 1 := ⟨depth - 1, by omega⟩
  have single := Admissible.seat_single levelled (depth + 1) key
  exact ((places.level_perm (depth + 1)).symm.pairwise single fun apart => apart.symm).sublist
    List.filter_sublist

theorem lookupIn_joined (depth : Nat) (deep : 1 ≤ depth) (key : Key) :
    lookupIn content (job.keeps (placed.tablesAt depth)) key =
      lookupIn content (job.keeps (version.level depth)) key :=
  (joined_single levelled places depth deep key).findSome?_perm
    ((places.level_perm depth).filter _)

include unused

theorem joined_nodup (depth : Nat) : (job.keeps (placed.tablesAt depth) ++ [output]).Nodup := by
  have inTables : ∀ table ∈ placed.tablesAt depth, table ∈ version.tablesNewestFirst :=
    fun table member => places.mem_tables (Placement.mem_tablesAt.mp member)
  have distinct : (version.level depth).Nodup :=
    levelled.distinct.of_map.sublist (Version.level_sublist version depth)
  refine List.nodup_append.mpr ⟨?_, List.nodup_singleton _, ?_⟩
  · exact ((places.level_perm depth).nodup_iff.mpr distinct).filter _
  · intro table member other isOutput same
    rw [List.mem_singleton.mp isOutput] at same
    exact unused table (inTables table (List.mem_of_mem_filter member)) (congrArg SsTable.id same)

/-- An output for a deeper level is read before a table that holds the same key exactly
if its smallest key is smaller. -/
theorem lookupIn_place_deep (fresh : job.takes output = false)
    (inside : job.outputLevel < version.levels.length) (deep : 1 ≤ job.outputLevel) {key : Key}
    {table : SsTable fmt} (member : table ∈ job.keeps (version.level job.outputLevel))
    (found : entryIn content key table ≠ none) :
    lookupIn content ((rebuilt version.levels.length
        (placed.installed job output)).level job.outputLevel) key =
      if output.smallestKey < table.smallestKey then
        (entryIn content key output).or
          (lookupIn content (job.keeps (version.level job.outputLevel)) key)
      else (lookupIn content (job.keeps (version.level job.outputLevel)) key).or
        (entryIn content key output) := by
  rw [level_rebuilt_output fresh inside deep, ← lookupIn_joined levelled places _ deep]
  refine (joined_single levelled places _ deep key).findSome?_sorted SsTable.smallestKey
    (joined_nodup levelled places unused _) ?_ found
  exact ((places.level_perm job.outputLevel).filter _).mem_iff.mpr member

/-- In its level, the output is read before the tables that are left or behind them. -/
theorem lookupIn_place_cases (fresh : job.takes output = false)
    (inside : job.outputLevel < version.levels.length) (key : Key) :
    lookupIn content ((rebuilt version.levels.length
          (placed.installed job output)).level job.outputLevel) key =
        (entryIn content key output).or
          (lookupIn content (job.keeps (version.level job.outputLevel)) key) ∨
      lookupIn content ((rebuilt version.levels.length
          (placed.installed job output)).level job.outputLevel) key =
        (lookupIn content (job.keeps (version.level job.outputLevel)) key).or
          (entryIn content key output) := by
  rcases Nat.eq_zero_or_pos job.outputLevel with top | deep
  · exact .inl (lookupIn_place_zero places fresh (by omega) top key)
  cases answer : lookupIn content (job.keeps (version.level job.outputLevel)) key with
  | some entry =>
      obtain ⟨table, member, found⟩ := exists_of_findSome? answer
      rw [← answer, lookupIn_place_deep levelled places unused fresh inside deep member
        (by simp [found])]
      split
      · exact .inl rfl
      · exact .inr rfl
  | none =>
      right
      have silent : ∀ table ∈ job.keeps (placed.tablesAt job.outputLevel),
          entryIn content key table = none := by
        rw [← lookupIn_joined levelled places _ deep] at answer
        exact List.findSome?_eq_none_iff.mp answer
      have single : AtMostOneHit (entryIn content key)
          (job.keeps (placed.tablesAt job.outputLevel) ++ [output]) :=
        List.pairwise_append.mpr ⟨joined_single levelled places _ deep key,
          List.pairwise_singleton _ _, fun table member _ _ => .inl (silent table member)⟩
      rw [level_rebuilt_output fresh inside deep, lookupIn,
        ← single.findSome?_perm (sortBySmallest_perm _).symm, List.findSome?_append,
        findSome?_eq_none silent, List.findSome?_singleton]

end Joined

end Rebuilding

/-! ## Jobs of which the first inputs are gone -/

section Cut

variable {content : SsTable fmt → List (Key × Entry)} {job : CompactionJob fmt} {gone : Nat}

theorem CompactionJob.takes_of_cut {table : SsTable fmt}
    (taken : (job.cut gone).takes table = true) : job.takes table = true := by
  obtain ⟨input, isInput, sameId⟩ := takes_iff.mp taken
  exact takes_iff.mpr ⟨input, List.mem_of_mem_take isInput, sameId⟩

theorem CompactionJob.cut_takes_of_not {table : SsTable fmt} (stays : job.takes table = false) :
    (job.cut gone).takes table = false := by
  by_contra taken
  rw [takes_of_cut (by simpa using taken)] at stays
  cases stays

theorem CompactionJob.keeps_cut (tables : List (SsTable fmt)) :
    ((job.cut gone).keeps tables).filter (fun table => !job.takes table) = job.keeps tables := by
  rw [keeps, keeps, List.filter_filter]
  refine List.filter_congr ?_
  intro table _
  cases stays : job.takes table with
  | true => rfl
  | false => simp [cut_takes_of_not stays]

/-- The inputs that are left are the later ones. -/
theorem CompactionJob.keeps_cut_inputs (distinct : (job.inputs.map SsTable.id).Nodup) :
    (job.cut gone).keeps job.inputs = job.inputs.drop gone := by
  have split := List.take_append_drop gone job.inputs
  rw [← split, List.map_append] at distinct
  have apart := List.disjoint_of_nodup_append distinct
  have first : (job.cut gone).keeps (job.inputs.take gone) = [] := by
    refine List.filter_eq_nil_iff.mpr ?_
    intro table member
    simp [takes_of_mem (show table ∈ (job.cut gone).inputs from member)]
  have rest : (job.cut gone).keeps (job.inputs.drop gone) = job.inputs.drop gone := by
    refine List.filter_eq_self.mpr ?_
    intro table member
    by_contra taken
    obtain ⟨input, isInput, sameId⟩ := takes_iff.mp (by simpa using taken)
    exact apart (List.mem_map_of_mem isInput) (sameId ▸ List.mem_map_of_mem member)
  calc (job.cut gone).keeps job.inputs
      = (job.cut gone).keeps (job.inputs.take gone ++ job.inputs.drop gone) := by rw [split]
    _ = job.inputs.drop gone := by rw [keeps, List.filter_append, ← keeps, ← keeps, first, rest,
          List.nil_append]

/-- What is left of some tables answers as those that stay, and then as the inputs that
are left. -/
theorem lookupIn_keeps_cut {tables : List (SsTable fmt)}
    (order : tables.Pairwise fun first second => job.takes first = true →
      job.takes second = false → ∀ key, entryIn content key first ≠ none →
        entryIn content key second = none) (gone : Nat) (key : Key) :
    lookupIn content ((job.cut gone).keeps tables) key =
      (lookupIn content (job.keeps tables) key).or
        (lookupIn content (((job.cut gone).keeps tables).filter job.takes) key) := by
  have order' : ((job.cut gone).keeps tables).Pairwise fun first second =>
      job.takes first = true → job.takes second = false → entryIn content key first ≠ none →
        entryIn content key second = none := by
    refine (order.sublist List.filter_sublist).imp ?_
    intro first second clear taken stays
    exact clear taken stays key
  rw [lookupIn, findSome?_split order', CompactionJob.keeps_cut]
  rfl

end Cut

/-- The key reads differently while the first `gone` inputs of a job are removed and the
others are not.  No table that stays above the output's level holds it; the newest
entry lies in an input that is gone, and the first input that is left and holds the key
reads differently; and the output, made of the merged entries, is not read before that
input. -/
def Uncovers (content : SsTable fmt → List (Key × Entry)) (version : Version fmt)
    (job : CompactionJob fmt) (merged : List (Key × Entry)) (gone : Nat) (key : Key) : Prop :=
  lookupIn content (job.keeps (version.above job.outputLevel)) key = none ∧
    ∃ newest table, lookupIn content (job.inputs.take gone) key = some newest ∧
      ((job.inputs.drop gone).find? fun input => (entryIn content key input).isSome) =
        some table ∧
      visible (entryIn content key table) ≠ visible (some newest) ∧
      ¬ (valueAt merged key ≠ none ∧ (job.outputLevel = 0 ∨
        table ∈ version.level job.outputLevel ∧ firstKey merged < table.smallestKey))

section Uncovering

variable {content : SsTable fmt → List (Key × Entry)} {version : Version fmt}
  {placed : Placement fmt} {job : CompactionJob fmt} {drops : Bool} {output : SsTable fmt}

theorem Admissible.fresh_cut (admissible : Admissible content version job drops)
    (unused : ∀ table ∈ version.tablesNewestFirst, table.id ≠ output.id) (gone : Nat) :
    (job.cut gone).takes output = false := by
  refine CompactionJob.cut_takes_of_not ?_
  by_contra taken
  obtain ⟨input, isInput, sameId⟩ := CompactionJob.takes_iff.mp (by simpa using taken)
  exact unused input (admissible.inputs_mem isInput) sameId

/-- The output's level, split into what stays in it and the inputs left in it. -/
theorem Admissible.lookupIn_level_cut (admissible : Admissible content version job drops)
    (gone : Nat) (key : Key) :
    lookupIn content ((job.cut gone).keeps (version.level job.outputLevel)) key =
      (lookupIn content (job.keeps (version.level job.outputLevel)) key).or
        (lookupIn content
          (((job.cut gone).keeps (version.level job.outputLevel)).filter job.takes) key) := by
  have order := admissible.order
  rw [Version.front_append_seat] at order
  exact lookupIn_keeps_cut (List.pairwise_append.mp order).2.1 gone key

variable (admissible : Admissible content version job drops)
  (levelled : WellLevelled content version)

include admissible levelled

theorem Admissible.inputs_distinct : (job.inputs.map SsTable.id).Nodup := by
  have nodup := levelled.distinct
  rw [Version.tables_split admissible.inside, List.map_append] at nodup
  exact (List.Nodup.of_append_left nodup).sublist (admissible.sub.map _)

/-- The inputs that are left, above the output's level and in it. -/
theorem Admissible.drop_inputs (gone : Nat) :
    job.inputs.drop gone =
      ((job.cut gone).keeps (version.above job.outputLevel)).filter job.takes ++
        ((job.cut gone).keeps (version.level job.outputLevel)).filter job.takes := by
  have taken := admissible.filter_takes levelled
  rw [Version.front_append_seat] at taken
  rw [← CompactionJob.keeps_cut_inputs (admissible.inputs_distinct levelled), ← List.filter_append,
    CompactionJob.keeps, CompactionJob.keeps, CompactionJob.keeps, ← List.filter_append,
    List.filter_comm, taken]

theorem Admissible.lookupIn_tables (key : Key) :
    lookupIn content version.tablesNewestFirst key =
      (((lookupIn content (job.keeps (version.above job.outputLevel)) key).or
          (lookupIn content (job.keeps (version.level job.outputLevel)) key)).or
        (lookupIn content job.inputs key)).or
      (lookupIn content (version.back job.outputLevel) key) := by
  have taken := admissible.filter_takes levelled
  have order := admissible.order
  rw [Version.front_append_seat] at taken order
  rw [Version.tables_eq_above admissible.inside, lookupIn, List.findSome?_append,
    findSome?_split (order.imp fun clear first second => clear first second key), taken,
    List.filter_append, List.findSome?_append]
  rfl

/-- A table that stays in the output's level shares no key with the inputs. -/
theorem Admissible.level_clear
    (top : job.outputLevel = 0 → job.keeps (version.level 0) = []) {key : Key}
    (found : lookupIn content job.inputs key ≠ none) :
    lookupIn content (job.keeps (version.level job.outputLevel)) key = none := by
  obtain ⟨entry, isEntry⟩ := Option.ne_none_iff_exists'.mp found
  obtain ⟨input, isInput, inInput⟩ := exists_of_findSome? isEntry
  refine findSome?_eq_none ?_
  intro table member
  rcases Nat.eq_zero_or_pos job.outputLevel with isTop | deep
  · rw [isTop, top isTop] at member
    cases member
  · obtain ⟨inLevel, stays⟩ := List.mem_filter.mp member
    have inSeat : table ∈ version.seat job.outputLevel := by
      obtain ⟨depth, isDepth⟩ : ∃ depth, job.outputLevel = depth + 1 :=
        ⟨job.outputLevel - 1, by omega⟩
      rw [isDepth] at inLevel ⊢
      exact inLevel
    exact admissible.seat_clear levelled inSeat (by simpa using stays) isInput (by simp [inInput])

theorem Admissible.above_level_disjoint {table : SsTable fmt}
    (inLevel : table ∈ version.level job.outputLevel) : table ∉ version.above job.outputLevel := by
  have distinct := levelled.distinct.of_map
  rw [Version.tables_eq_above admissible.inside] at distinct
  intro inAbove
  exact List.disjoint_of_nodup_append (List.Nodup.of_append_left distinct) inAbove inLevel

variable (merges : Merges content job drops output)
  (top : job.outputLevel = 0 → job.keeps (version.level 0) = [])
  (places : Places placed version)
  (unused : ∀ table ∈ version.tablesNewestFirst, table.id ≠ output.id)

include merges top places unused

/-- The output is read before the first input that is left and holds the key exactly
if it goes to level 0, or that input lies in its level with a larger smallest key. -/
theorem Admissible.output_first_iff {gone : Nat} {key : Key} {newest : Entry} {table : SsTable fmt}
    (isNewest : lookupIn content (job.inputs.take gone) key = some newest)
    (isFirst : ((job.inputs.drop gone).find? fun input => (entryIn content key input).isSome) =
      some table)
    (different : visible (entryIn content key table) ≠ visible (some newest)) :
    (entryIn content key output ≠ none ∧
        lookupIn content
          (((job.cut gone).keeps (version.above job.outputLevel)).filter job.takes) key = none ∧
        lookupIn content ((rebuilt version.levels.length
            (placed.installed (job.cut gone) output)).level job.outputLevel) key =
          (entryIn content key output).or (lookupIn content
            (((job.cut gone).keeps (version.level job.outputLevel)).filter job.takes) key)) ↔
      entryIn content key output ≠ none ∧ (job.outputLevel = 0 ∨
        table ∈ version.level job.outputLevel ∧ output.smallestKey < table.smallestKey) := by
  have fresh := admissible.fresh_cut unused gone
  have inside : (job.cut gone).outputLevel < version.levels.length := admissible.inside
  have isChosen : lookupIn content job.inputs key = some newest := by
    rw [← List.take_append_drop gone job.inputs, lookupIn_append, isNewest]
    rfl
  have silent := admissible.level_clear levelled top (by rw [isChosen]; simp)
  have levelCut := admissible.lookupIn_level_cut gone key
  rw [silent, Option.none_or] at levelCut
  have found : entryIn content key table ≠ none := by
    have isSome := List.find?_some isFirst
    exact Option.isSome_iff_ne_none.mp isSome
  rw [admissible.drop_inputs levelled gone, List.find?_append] at isFirst
  refine and_congr_right ?_
  intro held
  have isOutput : entryIn content key output = some newest := by
    rcases admissible.output_answers merges key with same | ⟨nothing, _⟩
    · exact same.trans isChosen
    · exact absurd nothing held
  constructor
  · rintro ⟨noUpper, isPlace⟩
    rw [findSome?_eq_none_iff_find?.mp noUpper, Option.none_or] at isFirst
    have inCut := List.mem_of_mem_filter (List.mem_of_find?_eq_some isFirst)
    rcases Nat.eq_zero_or_pos job.outputLevel with isTop | deep
    · exact .inl isTop
    refine .inr ⟨List.mem_of_mem_filter inCut, ?_⟩
    -- Behind the input, the output would give the input's entry, which differs.
    by_contra higher
    have place := lookupIn_place_deep levelled places unused fresh inside deep inCut found
    rw [if_neg higher] at place
    have isInner : lookupIn content ((job.cut gone).keeps (version.level job.outputLevel)) key =
        entryIn content key table := by
      rw [levelCut, lookupIn, findSome?_eq_find?_bind, isFirst]
      rfl
    obtain ⟨older, isOlder⟩ := Option.ne_none_iff_exists'.mp found
    have same : (lookupIn content ((job.cut gone).keeps (version.level job.outputLevel)) key).or
        (entryIn content key output) = _ := place.symm.trans isPlace
    rw [isInner, isOutput, isOlder] at same
    exact different (by rw [isOlder]; exact congrArg visible same)
  · intro reason
    have noUpper : ((((job.cut gone).keeps (version.above job.outputLevel)).filter job.takes).find?
        fun input => (entryIn content key input).isSome) = none := by
      rcases reason with isTop | ⟨inLevel, _⟩
      · rw [isTop]
        rfl
      · by_contra present
        obtain ⟨other, isOther⟩ := Option.ne_none_iff_exists'.mp present
        rw [isOther, Option.some_or] at isFirst
        cases isFirst
        exact admissible.above_level_disjoint levelled inLevel
          (List.mem_of_mem_filter (List.mem_of_mem_filter (List.mem_of_find?_eq_some isOther)))
    refine ⟨findSome?_eq_none_iff_find?.mpr noUpper, ?_⟩
    rw [noUpper, Option.none_or] at isFirst
    rw [← levelCut]
    rcases Nat.eq_zero_or_pos job.outputLevel with isTop | deep
    · exact lookupIn_place_zero places fresh (by omega) isTop key
    · have inCut := List.mem_of_mem_filter (List.mem_of_find?_eq_some isFirst)
      have place := lookupIn_place_deep levelled places unused fresh inside deep inCut found
      rw [if_pos (reason.resolve_left (by omega)).2] at place
      exact place

/-- **When part of an edit changes what a key reads.** -/
theorem Admissible.visible_rebuilt_iff (ranged : Ranged content output) (gone : Nat) (key : Key) :
    visible (lookupIn content (rebuilt version.levels.length
          (placed.installed (job.cut gone) output)).tablesNewestFirst key) =
        visible (lookupIn content version.tablesNewestFirst key) ↔
      ¬ Uncovers content version job (content output) gone key := by
  have fresh := admissible.fresh_cut unused gone
  have order := admissible.order
  rw [Version.front_append_seat] at order
  have behind : (job.cut gone).keeps (version.back job.outputLevel) =
      version.back job.outputLevel := by
    have keeps := admissible.keeps_back levelled
    rw [CompactionJob.keeps, List.filter_eq_self] at keeps ⊢
    intro table member
    rw [CompactionJob.cut_takes_of_not (by simpa using keeps table member)]
    rfl
  have chosen : lookupIn content job.inputs key =
      (lookupIn content (job.inputs.take gone) key).or
        ((lookupIn content
            (((job.cut gone).keeps (version.above job.outputLevel)).filter job.takes) key).or
          (lookupIn content
            (((job.cut gone).keeps (version.level job.outputLevel)).filter job.takes) key)) := by
    rw [← lookupIn_append, ← admissible.drop_inputs levelled gone, ← lookupIn_append,
      List.take_append_drop]
  have isAbove := lookupIn_keeps_cut (List.pairwise_append.mp order).1 gone key
  have placedAt := lookupIn_place_cases levelled places unused fresh admissible.inside key
  have isLevel := admissible.lookupIn_level_cut gone key
  have clear := @Admissible.level_clear _ _ _ _ _ admissible levelled top key
  rw [lookupIn_rebuilt levelled places fresh admissible.inside behind,
    admissible.lookupIn_tables levelled key]
  rw [CompactionJob.cut_outputLevel, isAbove]
  rw [CompactionJob.cut_outputLevel, isLevel] at placedAt
  rw [chosen] at clear ⊢
  refine (view_replace_part_iff clear ?_ placedAt).trans (not_congr (and_congr_right fun _ => ?_))
  · rw [← chosen]
    exact admissible.output_answers merges key
  · have isFirst : ∀ entry, (lookupIn content (((job.cut gone).keeps
          (version.above job.outputLevel)).filter job.takes) key).or (lookupIn content
          (((job.cut gone).keeps (version.level job.outputLevel)).filter job.takes) key) =
            some entry ↔
        ∃ table, ((job.inputs.drop gone).find? fun input => (entryIn content key input).isSome) =
          some table ∧ entryIn content key table = some entry := by
      intro entry
      rw [← lookupIn_append, ← admissible.drop_inputs levelled gone, lookupIn,
        findSome?_eq_find?_bind, Option.bind_eq_some_iff]
    rw [← ranged.smallest]
    constructor
    · rintro ⟨newest, older, isNewest, isOlder, different, notFirst⟩
      obtain ⟨table, found, isEntry⟩ := (isFirst older).mp isOlder
      rw [← isEntry] at different
      exact ⟨newest, table, isNewest, found, different, fun first => notFirst
        ((admissible.output_first_iff levelled merges top places unused isNewest found
          different).mpr first)⟩
    · rintro ⟨newest, table, isNewest, found, different, notFirst⟩
      have present := List.find?_some found
      obtain ⟨older, isEntry⟩ := Option.isSome_iff_exists.mp present
      refine ⟨newest, older, isNewest, (isFirst older).mpr ⟨table, found, isEntry⟩, ?_,
        fun first => notFirst ((admissible.output_first_iff levelled merges top places unused
          isNewest found different).mp first)⟩
      rw [← isEntry]
      exact different

end Uncovering

/-- Only the entries of the version's tables matter. -/
theorem Uncovers.congr {content content' : SsTable fmt → List (Key × Entry)}
    {version : Version fmt} {job : CompactionJob fmt} {merged : List (Key × Entry)} {gone : Nat}
    {key : Key} (inside : job.outputLevel < version.levels.length)
    (inVersion : ∀ input ∈ job.inputs, input ∈ version.tablesNewestFirst)
    (same : ∀ table ∈ version.tablesNewestFirst, content' table = content table) :
    Uncovers content' version job merged gone key ↔
      Uncovers content version job merged gone key := by
  have above : ∀ table ∈ job.keeps (version.above job.outputLevel),
      content' table = content table := by
    intro table member
    refine same table ?_
    rw [Version.tables_eq_above inside]
    exact List.mem_append_left _ (List.mem_append_left _ (List.mem_of_mem_filter member))
  have entries : ∀ input ∈ job.inputs, entryIn content' key input = entryIn content key input :=
    fun input isInput => by rw [entryIn, entryIn, same input (inVersion input isInput)]
  have first : ((job.inputs.drop gone).find? fun input => (entryIn content' key input).isSome) =
      (job.inputs.drop gone).find? fun input => (entryIn content key input).isSome := by
    refine List.find?_congr ?_
    intro input member
    rw [entries input (List.mem_of_mem_drop member)]
  rw [Uncovers, Uncovers, lookupIn_congr above,
    lookupIn_congr fun input isInput => same input (inVersion input (List.mem_of_mem_take isInput)),
    first]
  refine and_congr_right fun _ => exists_congr fun newest => exists_congr fun table => ?_
  refine and_congr_right fun _ => and_congr_right fun found => ?_
  rw [entries table (List.mem_of_mem_drop (List.mem_of_find?_eq_some found))]

/-! ## Stopping in a compaction -/

/-- The key reads differently after a stop that removed `gone` inputs of the job. -/
def Db.Uncovers (db : Db fmt) (job : CompactionJob fmt) (gone : Nat) (key : Key) : Prop :=
  db.engine.memtable.get key = none ∧
    LsmStore.Uncovers (entriesOn db.disk.sst) db.engine.version job
      (mergedEntries db.disk.sst job (db.drops job)) gone key

section Stops

variable {sound : fmt.Sound Fits} {db : Db fmt}

/-- Opening a directory with the log of the database and a listing of held tables. -/
theorem Consistent.reads_of_placement (consistent : Consistent sound db) {disk : Disk fmt}
    {manifest : Manifest} {placed : Placement fmt} (sameLog : disk.wal = db.disk.wal)
    (recovered : Manifest.recover disk.manifest = .ok manifest)
    (listed : manifest.tables = placed.listing)
    (held : ∀ item ∈ placed, Held sound disk.sst item.1)
    (recordable : placed.Recordable db.engine.options.maxLevels) :
    ∃ engine, openWith db.engine.options disk = .ok engine ∧
      ∀ key, validateKey key = .ok () → (⟨disk, engine, []⟩ : Db fmt).eval (get key) =
        .ok (visible ((db.engine.memtable.get key).or (lookupIn (entriesOn disk.sst)
          (rebuilt db.engine.options.maxLevels placed).tablesNewestFirst key))) := by
  obtain ⟨operations, fit, isLog, isMemtable⟩ := consistent.logged
  have replayed : replay disk.wal = .ok operations := by
    rw [sameLog, isLog]
    exact replay_eq_ok_iff.mpr ⟨fun operation member => (fit operation member).1, [],
      (List.append_nil _).symm, .inl (by decide)⟩
  refine ⟨_, openWith_of_placement sound recovered listed held recordable replayed, ?_⟩
  intro key valid
  have tablesHeld : ∀ table ∈ (rebuilt db.engine.options.maxLevels placed).tablesNewestFirst,
      Held sound disk.sst table := by
    intro table member
    obtain ⟨depth, isPlaced⟩ := (mem_tables_rebuilt recordable).mp member
    exact held _ isPlaced
  refine (LsmStore.eval_get sound ?_ ?_ valid).trans ?_
  · exact tablesHeld
  · exact sound.coherent_empty _ _
  · rw [isMemtable]
    rfl

variable {job : CompactionJob fmt}

theorem compactionRecords_take (id : UInt64) (gone : Nat) :
    (compactionRecords id job).take (gone + 2) = compactionRecords id (job.cut gone) := by
  simp [compactionRecords, CompactionJob.cut, List.map_take]

theorem not_uncovers_zero (key : Key) : ¬ db.Uncovers job 0 key := by
  rintro ⟨_, _, newest, _, impossible, _⟩
  cases impossible

theorem visible_or_iff {memtable tables tables' : Option Entry} {Broken : Prop}
    (reads : visible tables' = visible tables ↔ ¬ Broken) :
    visible (memtable.or tables') = visible (memtable.or tables) ↔
      ¬ (memtable = none ∧ Broken) := by
  cases memtable with
  | some entry => simp
  | none => simpa using reads

/-- Stopping before the output is recorded: the manifest lists the tables of the
version. -/
theorem Consistent.compaction_stops_early (consistent : Consistent sound db)
    (levels : LevelsFit db.engine.version) (disk : Disk fmt) {manifest : Manifest}
    (sameLog : disk.wal = db.disk.wal)
    (recovered : Manifest.recover disk.manifest = .ok manifest)
    (sameTables : manifest.tables = db.engine.manifest.tables)
    (stocked : Stocked sound disk.sst db.engine.version)
    (same : ∀ table ∈ db.engine.version.tablesNewestFirst,
      entriesOn disk.sst table = entriesOn db.disk.sst table) :
    ∃ engine, openWith db.engine.options disk = .ok engine ∧
      ∀ key, (⟨disk, engine, []⟩ : Db fmt).eval (get key) = db.eval (get key) := by
  obtain ⟨placed, places, listed⟩ := consistent.mirrored
  have positive : 1 ≤ db.engine.version.levels.length := by
    rw [consistent.depth]
    exact consistent.positive
  have recordable := places.recordable levels
  have rearranged := places.rearranged levels positive
  rw [consistent.depth] at recordable rearranged
  obtain ⟨engine, opened, reads⟩ := consistent.reads_of_placement sameLog recovered
    (sameTables.trans listed) (fun item member => stocked.held _ (places.mem_tables member))
    recordable
  refine ⟨engine, opened, fun key => eval_get_congr fun valid => ?_⟩
  rw [reads key valid, consistent.eval_get valid, rearranged.lookupIn_eq stocked.levelled,
    lookupIn_congr same, Db.reading, consistent.thawed]
  rfl

variable {file : fmt.File} {handle : fmt.Handle}

theorem Stocked.output_entries (stocked : Stocked sound db.disk.sst db.engine.version)
    (picked : pickCompaction db.engine.version db.engine.options = .ok (some job))
    (fits : Fits db.engine.options (mergedEntries db.disk.sst job (db.drops job)))
    (created : fmt.create db.engine.options (mergedEntries db.disk.sst job (db.drops job)) =
      .ok (file, handle)) :
    entriesOn (Function.update db.disk.sst db.engine.manifest.nextTableId (some file))
      ⟨db.engine.manifest.nextTableId, handle⟩ = mergedEntries db.disk.sst job (db.drops job) := by
  have inputsHeld : ∀ input ∈ job.inputs, Held sound db.disk.sst input :=
    fun input isInput => stocked.held input (inputs_mem_of_pick picked input isInput)
  obtain ⟨_, valid, _⟩ := mergedEntries_spec inputsHeld (db.drops job)
  exact (held_of_create sound db.disk.sst _ valid fits created).2

/-- Stopping once the output is recorded, with the first `gone` inputs removed. -/
theorem Consistent.compaction_stops_late (consistent : Consistent sound db)
    (levels : LevelsFit db.engine.version)
    (picked : pickCompaction db.engine.version db.engine.options = .ok (some job))
    (short : job.outputLevel < 2 ^ 32)
    (fits : Fits db.engine.options (mergedEntries db.disk.sst job (db.drops job)))
    (created : fmt.create db.engine.options (mergedEntries db.disk.sst job (db.drops job)) =
      .ok (file, handle)) (gone : Nat) {disk : Disk fmt} (sameLog : disk.wal = db.disk.wal)
    (isManifest : disk.manifest = db.disk.manifest ++ manifestLog
      (compactionRecords db.engine.manifest.nextTableId (job.cut gone)))
    (files : disk.sst =
      Function.update db.disk.sst db.engine.manifest.nextTableId (some file)) :
    ∃ engine, openWith db.engine.options disk = .ok engine ∧
      ∀ key, (⟨disk, engine, []⟩ : Db fmt).eval (get key) = db.eval (get key) ↔
        ¬ (validateKey key = .ok () ∧ db.Uncovers job gone key) := by
  obtain ⟨placed, places, listed⟩ := consistent.mirrored
  obtain ⟨admissible, merges, outputHeld⟩ :=
    consistent.stocked.output consistent.depth consistent.fresh picked fits created
  have isMerged := consistent.stocked.output_entries picked fits created
  have stocked := consistent.stocked.update consistent.fresh file
  have same := Stocked.entriesOn_update db.disk.sst consistent.fresh file
  rw [← files] at admissible merges outputHeld isMerged stocked same
  obtain ⟨records, isLog, replayed⟩ := consistent.recorded_append
    (Manifest.replayAll_compaction consistent.unlisted (job.cut gone))
  have recovered : Manifest.recover disk.manifest =
      .ok (db.engine.manifest.compacted (job.cut gone)) := by
    rw [isManifest]
    exact (RecordsTo.of_records isLog replayed).recover
  have listed' : (db.engine.manifest.compacted (job.cut gone)).tables =
      (placed.installed (job.cut gone) ⟨db.engine.manifest.nextTableId, handle⟩).listing := by
    rw [Placement.installed, Places.listing_install, ← listed]
    rfl
  have members : ∀ item ∈ placed.installed (job.cut gone) ⟨db.engine.manifest.nextTableId, handle⟩,
      item ∈ placed ∨ item = (⟨db.engine.manifest.nextTableId, handle⟩, job.outputLevel) := by
    intro item member
    rcases List.mem_append.mp (List.mem_of_mem_filter member) with old | new
    · exact .inl old
    · exact .inr (List.mem_singleton.mp new)
  have held : ∀ item ∈ placed.installed (job.cut gone) ⟨db.engine.manifest.nextTableId, handle⟩,
      Held sound disk.sst item.1 := by
    intro item member
    rcases members item member with old | rfl
    · exact stocked.held _ (places.mem_tables old)
    · exact outputHeld
  have recordable := places.recordable levels
  have inside := admissible.inside
  rw [consistent.depth] at recordable inside
  have recordable' : Placement.Recordable (placed.installed (job.cut gone)
      ⟨db.engine.manifest.nextTableId, handle⟩) db.engine.options.maxLevels := by
    intro item member
    rcases members item member with old | rfl
    · exact recordable item old
    · exact ⟨inside, short⟩
  obtain ⟨engine, opened, reads⟩ :=
    consistent.reads_of_placement sameLog recovered listed' held recordable'
  refine ⟨engine, opened, ?_⟩
  intro key
  cases valid : validateKey key with
  | error cause =>
      have refused := @eval_get_congr _ db ⟨disk, engine, []⟩ key (by rw [valid]; exact nofun)
      simp [refused]
  | ok _ =>
      have exact_ := admissible.visible_rebuilt_iff stocked.levelled merges
        (keeps_level_zero_of_pick picked) places consistent.fresh outputHeld.ranged gone key
      rw [consistent.depth, isMerged, Uncovers.congr admissible.inside
        (fun input isInput => admissible.inputs_mem isInput) same, lookupIn_congr same] at exact_
      rw [reads key valid, consistent.eval_get valid, Except.ok.injEq, Db.reading,
        consistent.thawed]
      refine (visible_or_iff exact_).trans ?_
      simp [Db.Uncovers]

/-- From any consistent database, after any number of the records of a pass. -/
theorem Consistent.compaction_stops (consistent : Consistent sound db)
    (levels : LevelsFit db.engine.version)
    (picked : pickCompaction db.engine.version db.engine.options = .ok (some job))
    (short : job.outputLevel < 2 ^ 32) (room : Roomy db)
    (fits : Fits db.engine.options (mergedEntries db.disk.sst job (db.drops job))) (count : Nat) :
    (db.stoppedIn compactOnce (stopAfter count)).wal = db.disk.wal ∧
      (db.stoppedIn compactOnce (stopAfter count)).manifest = db.disk.manifest ++ manifestLog
        ((compactionRecords db.engine.manifest.nextTableId job).take count) ∧
      ∃ engine, openWith db.engine.options (db.stoppedIn compactOnce (stopAfter count)) =
          .ok engine ∧
        ∀ key, (⟨db.stoppedIn compactOnce (stopAfter count), engine, []⟩ : Db fmt).eval (get key) =
            db.eval (get key) ↔
          ¬ (validateKey key = .ok () ∧ db.Uncovers job (count - 2) key) := by
  have inputsHeld : ∀ input ∈ job.inputs, Held sound db.disk.sst input :=
    fun input isInput => consistent.stocked.held input (inputs_mem_of_pick picked input isInput)
  obtain ⟨_, valid, _⟩ := mergedEntries_spec inputsHeld (db.drops job)
  obtain ⟨file, handle, created, _⟩ := sound.create_ok valid fits
  have covered : ∀ gone key, gone = 0 → ¬ (validateKey key = .ok () ∧ db.Uncovers job gone key) := by
    rintro _ key rfl ⟨_, uncovers⟩
    exact not_uncovers_zero key uncovers
  cases count with
  | zero =>
      rw [stoppedIn_compactOnce_zero picked room]
      obtain ⟨records, isLog, replayed⟩ := consistent.recorded
      obtain ⟨engine, opened, reads⟩ := consistent.compaction_stops_early levels db.disk rfl
        (RecordsTo.of_records isLog replayed).recover rfl consistent.stocked fun _ _ => rfl
      refine ⟨rfl, (List.append_nil _).symm, engine, opened, ?_⟩
      exact fun key => iff_of_true (reads key) (covered _ key rfl)
  | succ count =>
      rw [stoppedIn_compactOnce_succ inputsHeld (inputs_mem_of_pick picked) picked room
        consistent.unlisted created count]
      refine ⟨rfl, rfl, ?_⟩
      cases count with
      | zero =>
          obtain ⟨records, isLog, replayed⟩ := consistent.recorded_append
            (show Manifest.replayAll [.setNextTableId (db.engine.manifest.nextTableId + 1)]
              db.engine.manifest = .ok db.engine.manifest.allocated from rfl)
          obtain ⟨engine, opened, reads⟩ := consistent.compaction_stops_early levels
            { db.disk.withTable db.engine.manifest.nextTableId file with
              manifest := db.disk.manifest ++ manifestLog
                [.setNextTableId (db.engine.manifest.nextTableId + 1)] }
            rfl (RecordsTo.of_records isLog replayed).recover rfl
            (consistent.stocked.update consistent.fresh file)
            (Stocked.entriesOn_update db.disk.sst consistent.fresh file)
          exact ⟨engine, opened, fun key => iff_of_true (reads key) (covered _ key rfl)⟩
      | succ gone =>
          rw [compactionRecords_take]
          exact consistent.compaction_stops_late levels picked short fits created gone rfl rfl rfl

end Stops

/-- **A stopped compaction, exactly.**  Take any consistent database and the job picked in
it, and let the process stop after any number of the records that the pass appends:
the new next id, the output, and one removal for each input.  The directory has the log
as it was and those records in the manifest; opening it succeeds, and a key reads as
before exactly if it is not uncovered.  Asked of the database is that an id is left,
that the output fits its format, and that the levels fit into 32 bits. -/
theorem compaction_crash_exact (sizing : BloomSizing) {db : Db (byteTables sizing)}
    (consistent : Consistent (byteTables_sound sizing) db) {job : CompactionJob (byteTables sizing)}
    (picked : pickCompaction db.engine.version db.engine.options = .ok (some job))
    (levels : LevelsFit db.engine.version) (short : job.outputLevel < 2 ^ 32) (room : Roomy db)
    (fits : TableFits sizing db.engine.options (mergedEntries db.disk.sst job (db.drops job)))
    (count : Nat) :
    (db.stoppedIn compactOnce (stopAfter count)).wal = db.disk.wal ∧
      (db.stoppedIn compactOnce (stopAfter count)).manifest = db.disk.manifest ++ manifestLog
        ((compactionRecords db.engine.manifest.nextTableId job).take count) ∧
      ∃ engine, openWith db.engine.options (db.stoppedIn compactOnce (stopAfter count)) =
          .ok engine ∧
        ∀ key, (⟨db.stoppedIn compactOnce (stopAfter count), engine, []⟩
            : Db (byteTables sizing)).eval (get key) = db.eval (get key) ↔
          ¬ (validateKey key = .ok () ∧ db.Uncovers job (count - 2) key) :=
  consistent.compaction_stops levels picked short room fits count

/-- Two tables of level 0 are compacted. -/
def pairOptions : Options := { tinyOptions with l0CompactionTrigger := 2 }

section PairOfTables

variable {outcome : Except Failure (Db (byteTables smallSizing))}

/-- Whether a run ends with a job that may be stopped, and the first input that is left
after a removal does not hold the key. -/
def endsCovered (key : Key) (outcome : Except Failure (Db (byteTables smallSizing))) : Bool :=
  match outcome with
  | .error _ => false
  | .ok db =>
      match pickCompaction db.engine.version db.engine.options with
      | .ok (some job) =>
          decide (LevelsFit db.engine.version) && decide (job.outputLevel < 2 ^ 32) &&
            decide (Roomy db) &&
            decide (TableFits smallSizing db.engine.options
              (mergedEntries db.disk.sst job (db.drops job))) &&
            ((job.inputs.drop 1).find? fun input =>
              (entryIn (entriesOn db.disk.sst) key input).isSome).isNone
      | _ => false

theorem exists_of_endsCovered {key : Key} (ends : endsCovered key outcome = true) :
    ∃ db job, outcome = .ok db ∧
      pickCompaction db.engine.version db.engine.options = .ok (some job) ∧
      LevelsFit db.engine.version ∧ job.outputLevel < 2 ^ 32 ∧ Roomy db ∧
      TableFits smallSizing db.engine.options (mergedEntries db.disk.sst job (db.drops job)) ∧
      ¬ db.Uncovers job 1 key := by
  unfold endsCovered at ends
  split at ends
  · cases ends
  · rename_i db
    split at ends
    · rename_i job picked
      simp only [Bool.and_eq_true, decide_eq_true_eq, Option.isNone_iff_eq_none] at ends
      obtain ⟨⟨⟨⟨levels, short⟩, room⟩, fits⟩, nothing⟩ := ends
      refine ⟨db, job, rfl, picked, levels, short, room, fits, ?_⟩
      rintro ⟨_, _, _, table, _, found, _⟩
      rw [nothing] at found
      cases found
    · cases ends

/-- Two tables with one key each: the removal of the newer one uncovers nothing. -/
theorem compaction_crash_exact_apart :
    ∃ (db : Db (byteTables smallSizing)) (job : CompactionJob (byteTables smallSizing))
      (engine : Engine (byteTables smallSizing)),
      executeAll [.put [97] [49], .flush, .put [98] [50], .flush]
        (Db.new (byteTables smallSizing) pairOptions) = .ok db ∧
      pickCompaction db.engine.version db.engine.options = .ok (some job) ∧
      openWith db.engine.options (db.stoppedIn compactOnce (stopAfter 3)) = .ok engine ∧
      (⟨db.stoppedIn compactOnce (stopAfter 3), engine, []⟩
        : Db (byteTables smallSizing)).eval (get [98]) = db.eval (get [98]) := by
  obtain ⟨db, job, executed, picked, levels, short, room, fits, covered⟩ :=
    exists_of_endsCovered (show endsCovered [98] (executeAll [.put [97] [49], .flush,
      .put [98] [50], .flush] (Db.new (byteTables smallSizing) pairOptions)) = true by
        decide +kernel)
  have consistent := new_consistent (byteTables_sound smallSizing)
    (show 1 ≤ pairOptions.maxLevels by decide)
  have steps := run_steps consistent (show AllSteps (Admitted (TableFits smallSizing)) _ _ by
    decide +kernel) executed Ghost.start
  obtain ⟨_, _, engine, opened, reads⟩ := compaction_crash_exact smallSizing
    (steps_consistent steps consistent) picked levels short room fits 3
  exact ⟨db, job, engine, executed, picked, opened, (reads [98]).mpr fun both => covered both.2⟩

/-- What a run ends reading, before and after a compaction that stops. -/
def endsStopped (count : Nat) (key : Key) (outcome : Except Failure (Db (byteTables smallSizing))) :
    Option (List (Except Failure (Option Bytes))) :=
  match outcome with
  | .error _ => none
  | .ok db =>
      match openWith db.engine.options (db.stoppedIn compactOnce (stopAfter count)) with
      | .error _ => none
      | .ok engine =>
          some [db.eval (get key),
            (⟨db.stoppedIn compactOnce (stopAfter count), engine, []⟩ : Db _).eval (get key)]

/-- **An overwritten value comes back.**  Two tables hold one key.  The pass stops once
the newer one is removed from the manifest: the older one is read before the output. -/
theorem compaction_crash_uncovers :
    ∃ (db : Db (byteTables smallSizing)) (engine : Engine (byteTables smallSizing)),
      executeAll [.put [97] [49], .flush, .put [97] [50], .flush]
        (Db.new (byteTables smallSizing) pairOptions) = .ok db ∧
      db.eval (get [97]) = .ok (some [50]) ∧
      openWith db.engine.options (db.stoppedIn compactOnce (stopAfter 3)) = .ok engine ∧
      (⟨db.stoppedIn compactOnce (stopAfter 3), engine, []⟩
        : Db (byteTables smallSizing)).eval (get [97]) = .ok (some [49]) := by
  have ends : endsStopped 3 [97] (executeAll [.put [97] [49], .flush, .put [97] [50], .flush]
      (Db.new (byteTables smallSizing) pairOptions)) =
        some [.ok (some [50]), .ok (some [49])] := by
    decide +kernel
  unfold endsStopped at ends
  split at ends
  · cases ends
  · rename_i db executed
    split at ends
    · cases ends
    · rename_i engine opened
      simp only [Option.some.injEq, List.cons.injEq, and_true] at ends
      exact ⟨db, engine, executed, ends.1, opened, ends.2⟩

end PairOfTables

end LsmStore
