import LsmStore.TableFormat

/-!
# Versions and compaction jobs

A version is the live set of tables, organised by level: level 0 holds flushed
tables newest first, whose ranges may overlap; the deeper levels are sorted by
smallest key.  This module translates the functions that read a version, pick a
compaction job in it and install the job's output.
-/

set_option autoImplicit false

namespace LsmStore

open Foundation

/-- A live table: its id and what is kept of it in memory. -/
structure SsTable (fmt : TableFormat) where
  id : UInt64
  handle : fmt.Handle

namespace SsTable

variable {fmt : TableFormat}

def smallestKey (table : SsTable fmt) : Key := fmt.smallestKey table.handle

def largestKey (table : SsTable fmt) : Key := fmt.largestKey table.handle

def sizeBytes (table : SsTable fmt) : Nat := fmt.sizeBytes table.handle

/-- The range check of an empty table: both ends are the empty key. -/
def vacant (table : SsTable fmt) : Bool :=
  decide (table.smallestKey = [] ∧ table.largestKey = [])

end SsTable

/-- The live set of tables, organised by level. -/
structure Version (fmt : TableFormat) where
  levels : List (List (SsTable fmt))

/-- The inputs of a compaction, newest first, and the level of its output. -/
structure CompactionJob (fmt : TableFormat) where
  inputs : List (SsTable fmt)
  outputLevel : Nat

variable {fmt : TableFormat}

/-- Whether a table's range meets `[small, large]`; an empty table meets nothing. -/
def overlaps (table : SsTable fmt) (small large : Key) : Bool :=
  if table.vacant then false
  else decide (table.smallestKey ≤ large ∧ small ≤ table.largestKey)

/-- The smallest and the largest key of a list of tables. -/
def span (tables : List (SsTable fmt)) : Key × Key :=
  match tables with
  | [] => ([], [])
  | first :: rest =>
      rest.foldl (fun bounds table =>
        (if table.smallestKey < bounds.1 then table.smallestKey else bounds.1,
          if table.largestKey > bounds.2 then table.largestKey else bounds.2))
        (first.smallestKey, first.largestKey)

/-- Stable sort by smallest key. -/
def sortBySmallest (tables : List (SsTable fmt)) : List (SsTable fmt) :=
  tables.insertionSort fun first second => first.smallestKey ≤ second.smallestKey

namespace Version

/-- A version of empty levels. -/
def withMaxLevels (fmt : TableFormat) (maxLevels : Nat) : Version fmt :=
  ⟨List.replicate maxLevels []⟩

/-- Level 0 front to back, then the deeper levels. -/
def tablesNewestFirst (version : Version fmt) : List (SsTable fmt) :=
  (version.levels.head?.getD []) ++ (version.levels.drop 1).flatten

/-- The tables of a level; a level that does not exist holds none. -/
def level (version : Version fmt) (depth : Nat) : List (SsTable fmt) :=
  (version.levels[depth]?).getD []

end Version

/-! ## Picking a job -/

/-- The loop over the levels below level 0: the first level larger than its
limit gives its first table and what that overlaps one level deeper. -/
def pickLevel (version : Version fmt) (options : Options) :
    Nat → Nat → Nat → Except Failure (Option (CompactionJob fmt))
  | 0, _, _ => .ok none
  | remaining + 1, depth, limit =>
      match version.levels[depth]? with
      | none => .ok none
      | some tables =>
          let size := (tables.map SsTable.sizeBytes).sum
          if size > u64Max then .error .panic
          else if size > limit then
            match tables with
            | [] => .ok none
            | victim :: _ =>
                let next := (version.level (depth + 1)).filter fun table =>
                  overlaps table victim.smallestKey victim.largestKey
                .ok (some ⟨victim :: next, depth + 1⟩)
          else
            pickLevel version options remaining (depth + 1)
              (min (limit * options.levelSizeMultiplier) u64Max)

/-- Picks what to compact: all of level 0 once it is long enough, with what it
overlaps in level 1, and otherwise a table of the first oversized level. -/
def pickCompaction (version : Version fmt) (options : Options) :
    Except Failure (Option (CompactionJob fmt)) :=
  match version.levels with
  | [] => .ok none
  | l0 :: _ =>
      if l0.length ≥ options.l0CompactionTrigger then
        let bounds := span l0
        let overlapping := (version.level 1).filter fun table => overlaps table bounds.1 bounds.2
        .ok (some ⟨l0 ++ overlapping, min 1 (options.maxLevels - 1)⟩)
      else
        let limit := options.memtableSizeBytes * options.l0CompactionTrigger
        if limit > u64Max then .error .panic
        else pickLevel version options (options.maxLevels - 1 - 1) 1 limit

/-- Whether a table below the output level overlaps an input. -/
def lowerOverlap (version : Version fmt) (job : CompactionJob fmt) : Bool :=
  (version.levels.drop (job.outputLevel + 1)).any fun tables => tables.any fun table =>
    job.inputs.any fun input => overlaps table input.smallestKey input.largestKey

/-- Whether the job may leave tombstones out of its output. -/
def dropTombstones (version : Version fmt) (options : Options) (job : CompactionJob fmt) : Bool :=
  decide (job.outputLevel + 1 ≥ options.maxLevels) || !lowerOverlap version job

/-! ## Installing a job -/

/-- Removes the job's inputs from every level and puts the output into its
level, sorted by smallest key below level 0. -/
def applyCompaction (version : Version fmt) (job : CompactionJob fmt) (output : SsTable fmt) :
    Except Failure (Version fmt) :=
  let remove := job.inputs.map SsTable.id
  let kept := version.levels.map fun tables => tables.filter fun table => !remove.contains table.id
  let dest := min job.outputLevel (version.levels.length - 1)
  if version.levels = [] then .error .panic
  else
    .ok ⟨kept.modify dest fun tables =>
      if dest > 0 then sortBySmallest (tables ++ [output]) else tables ++ [output]⟩

/-- Puts a flushed table in front of level 0. -/
def Version.pushFront (version : Version fmt) (table : SsTable fmt) :
    Except Failure (Version fmt) :=
  match version.levels with
  | [] => .error .panic
  | l0 :: deeper => .ok ⟨(table :: l0) :: deeper⟩

/-! ## Small facts -/

theorem Version.tablesNewestFirst_eq (version : Version fmt) :
    version.tablesNewestFirst = version.levels.flatten := by
  obtain ⟨levels⟩ := version
  cases levels <;> rfl

theorem Version.mem_tables_iff {version : Version fmt} {table : SsTable fmt} :
    table ∈ version.tablesNewestFirst ↔ ∃ depth, table ∈ version.level depth := by
  rw [Version.tablesNewestFirst_eq, List.mem_flatten]
  constructor
  · rintro ⟨tables, isLevel, member⟩
    obtain ⟨depth, found⟩ := List.mem_iff_getElem?.mp isLevel
    exact ⟨depth, by rw [Version.level, found]; exact member⟩
  · rintro ⟨depth, member⟩
    unfold Version.level at member
    cases found : version.levels[depth]? with
    | none => rw [found] at member; cases member
    | some tables =>
        rw [found] at member
        exact ⟨tables, List.mem_of_getElem? found, member⟩

theorem overlaps_iff {table : SsTable fmt} {small large : Key} :
    overlaps table small large = true ↔
      table.vacant = false ∧ table.smallestKey ≤ large ∧ small ≤ table.largestKey := by
  unfold overlaps
  cases table.vacant <;> simp

theorem span_fold_bounds (rest : List (SsTable fmt)) (small large : Key) :
    let bounds := rest.foldl (fun bounds table =>
      (if table.smallestKey < bounds.1 then table.smallestKey else bounds.1,
        if table.largestKey > bounds.2 then table.largestKey else bounds.2)) (small, large)
    bounds.1 ≤ small ∧ large ≤ bounds.2 ∧
      ∀ table ∈ rest, bounds.1 ≤ table.smallestKey ∧ table.largestKey ≤ bounds.2 := by
  induction rest generalizing small large with
  | nil => exact ⟨le_refl _, le_refl _, fun _ member => nomatch member⟩
  | cons first rest ih =>
      obtain ⟨low, high, inside⟩ := ih
        (if first.smallestKey < small then first.smallestKey else small)
        (if first.largestKey > large then first.largestKey else large)
      have lowStep : (if first.smallestKey < small then first.smallestKey else small) ≤ small ∧
          (if first.smallestKey < small then first.smallestKey else small) ≤ first.smallestKey := by
        split
        · rename_i below; exact ⟨le_of_lt below, le_refl _⟩
        · rename_i notBelow; exact ⟨le_refl _, not_lt.mp notBelow⟩
      have highStep : large ≤ (if first.largestKey > large then first.largestKey else large) ∧
          first.largestKey ≤ (if first.largestKey > large then first.largestKey else large) := by
        split
        · rename_i above; exact ⟨le_of_lt above, le_refl _⟩
        · rename_i notAbove; exact ⟨le_refl _, not_lt.mp notAbove⟩
      refine ⟨le_trans low lowStep.1, le_trans highStep.1 high, ?_⟩
      intro table member
      rcases List.mem_cons.mp member with rfl | later
      · exact ⟨le_trans low lowStep.2, le_trans highStep.2 high⟩
      · exact inside table later

/-- The span of a list of tables contains each of their ranges. -/
theorem span_contains {tables : List (SsTable fmt)} {table : SsTable fmt}
    (member : table ∈ tables) :
    (span tables).1 ≤ table.smallestKey ∧ table.largestKey ≤ (span tables).2 := by
  cases tables with
  | nil => cases member
  | cons first rest =>
      obtain ⟨low, high, inside⟩ := span_fold_bounds rest first.smallestKey first.largestKey
      rcases List.mem_cons.mp member with rfl | later
      · exact ⟨low, high⟩
      · exact inside table later

theorem sortBySmallest_perm (tables : List (SsTable fmt)) : (sortBySmallest tables).Perm tables :=
  List.perm_insertionSort _ _

/-- Sorted by smallest key, as the deeper levels are. -/
def SortedBySmallest (tables : List (SsTable fmt)) : Prop :=
  tables.Pairwise fun first second => first.smallestKey ≤ second.smallestKey

theorem sortBySmallest_sorted (tables : List (SsTable fmt)) :
    SortedBySmallest (sortBySmallest tables) := by
  have total : Std.Total (fun first second : SsTable fmt =>
      first.smallestKey ≤ second.smallestKey) := ⟨fun first second => le_total _ _⟩
  have transitive : IsTrans (SsTable fmt) (fun first second =>
      first.smallestKey ≤ second.smallestKey) := ⟨fun _ _ _ => le_trans⟩
  exact List.pairwise_insertionSort _ _

end LsmStore
