import LsmStore.Foundation.Intervals
import LsmStore.Foundation.Layers
import LsmStore.Merge
import LsmStore.Version

/-!
# Compaction keeps the meaning of a version

A version is read through the entries of its tables, newest first.  This module
says when a compaction job may be installed in a version (`Admissible`), and
proves that

* a job picked in a version with disjoint deeper levels is admissible there;
* installing an admissible job with the merge of its inputs as output changes
  no lookup, and keeps the deeper levels sorted and disjoint.

Admissibility speaks about the version the job is installed in, which may have
changed since the job was picked.
-/

set_option autoImplicit false

namespace LsmStore

open Foundation

variable {fmt : TableFormat}

/-! ## Tables and their entries -/

section Tables

variable (content : SsTable fmt → List (Key × Entry))

/-- The handle of a table gives the true key range of its entries. -/
structure Ranged (table : SsTable fmt) : Prop where
  valid : ValidRun (content table)
  smallest : table.smallestKey = firstKey (content table)
  largest : table.largestKey = lastKey (content table)

/-- The entry a table holds for a key. -/
def entryIn (key : Key) (table : SsTable fmt) : Option Entry := valueAt (content table) key

/-- The entry found for a key in a list of tables, newest first. -/
def lookupIn (tables : List (SsTable fmt)) (key : Key) : Option Entry :=
  tables.findSome? (entryIn content key)

end Tables

/-- One of the tables is empty, or their ranges do not meet. -/
def RangesApart (first second : SsTable fmt) : Prop :=
  first.vacant = true ∨ second.vacant = true ∨
    Apart first.smallestKey first.largestKey second.smallestKey second.largestKey

instance (first second : SsTable fmt) : Decidable (RangesApart first second) :=
  inferInstanceAs (Decidable (first.vacant = true ∨ second.vacant = true ∨
    (first.largestKey < second.smallestKey ∨ second.largestKey < first.smallestKey)))

theorem RangesApart.symm {first second : SsTable fmt} (apart : RangesApart first second) :
    RangesApart second first := by
  rcases apart with empty | empty | apart
  · exact .inr (.inl empty)
  · exact .inl empty
  · exact .inr (.inr apart.symm)

/-- The tables of a level have pairwise disjoint ranges. -/
def LevelDisjoint (tables : List (SsTable fmt)) : Prop := tables.Pairwise RangesApart

instance (tables : List (SsTable fmt)) : Decidable (LevelDisjoint tables) :=
  inferInstanceAs (Decidable (tables.Pairwise RangesApart))

namespace Ranged

variable {content : SsTable fmt → List (Key × Entry)} {table other : SsTable fmt}

theorem smallest_ne_nil (ranged : Ranged content table) (nonempty : content table ≠ []) :
    table.smallestKey ≠ [] := by
  rw [ranged.smallest]
  exact ranged.valid.firstKey_ne_nil nonempty

theorem vacant_iff (ranged : Ranged content table) : table.vacant = true ↔ content table = [] := by
  unfold SsTable.vacant
  rw [decide_eq_true_eq]
  constructor
  · intro empty
    by_contra nonempty
    exact ranged.smallest_ne_nil nonempty empty.1
  · intro empty
    rw [ranged.smallest, ranged.largest, empty]
    exact ⟨rfl, rfl⟩

theorem smallest_le_largest (ranged : Ranged content table) :
    table.smallestKey ≤ table.largestKey := by
  rw [ranged.smallest, ranged.largest]
  exact ranged.valid.firstKey_le_lastKey

theorem range_of_entryIn (ranged : Ranged content table) {key : Key}
    (found : entryIn content key table ≠ none) :
    table.smallestKey ≤ key ∧ key ≤ table.largestKey := by
  rw [ranged.smallest, ranged.largest]
  exact ranged.valid.range_of_valueAt found

theorem not_vacant_of_entryIn (ranged : Ranged content table) {key : Key}
    (found : entryIn content key table ≠ none) : table.vacant = false := by
  by_contra empty
  rw [Bool.not_eq_false, ranged.vacant_iff] at empty
  rw [entryIn, empty] at found
  exact found rfl

/-- Tables with disjoint ranges share no key. -/
theorem entryIn_eq_none_of_apart (ranged : Ranged content table)
    (otherRanged : Ranged content other) (apart : RangesApart table other) {key : Key}
    (found : entryIn content key table ≠ none) : entryIn content key other = none := by
  by_contra alsoFound
  rcases apart with empty | empty | apart
  · rw [ranged.not_vacant_of_entryIn found] at empty
    cases empty
  · rw [otherRanged.not_vacant_of_entryIn alsoFound] at empty
    cases empty
  · obtain ⟨low, high⟩ := ranged.range_of_entryIn found
    obtain ⟨low', high'⟩ := otherRanged.range_of_entryIn alsoFound
    exact apart.not_mem low high low' high'

end Ranged

/-! ## Well-levelled versions -/

/-- The tables of the version have distinct ids and true key ranges, and the
levels below level 0 are disjoint. -/
structure WellLevelled (content : SsTable fmt → List (Key × Entry)) (version : Version fmt) :
    Prop where
  ranged : ∀ table ∈ version.tablesNewestFirst, Ranged content table
  distinct : (version.tablesNewestFirst.map SsTable.id).Nodup
  disjoint : ∀ depth, 1 ≤ depth → LevelDisjoint (version.level depth)

/-- The levels below level 0 are sorted by smallest key. -/
def LevelsSorted (version : Version fmt) : Prop :=
  ∀ depth, 1 ≤ depth → SortedBySmallest (version.level depth)

theorem WellLevelled.ranged_of_level {content : SsTable fmt → List (Key × Entry)}
    {version : Version fmt} (levelled : WellLevelled content version) {depth : Nat}
    {table : SsTable fmt} (member : table ∈ version.level depth) : Ranged content table :=
  levelled.ranged table (Version.mem_tables_iff.mpr ⟨depth, member⟩)

/-- Whether a table is an input of the job. -/
def CompactionJob.takes (job : CompactionJob fmt) (table : SsTable fmt) : Bool :=
  (job.inputs.map SsTable.id).contains table.id

theorem CompactionJob.takes_iff {job : CompactionJob fmt} {table : SsTable fmt} :
    job.takes table = true ↔ ∃ input ∈ job.inputs, input.id = table.id := by
  simp [CompactionJob.takes]

theorem CompactionJob.takes_of_mem {job : CompactionJob fmt} {table : SsTable fmt}
    (member : table ∈ job.inputs) : job.takes table = true :=
  CompactionJob.takes_iff.mpr ⟨table, member, rfl⟩

/-! ## The place of an output

The output of a job for a deeper level takes its place among the tables of that
level; an output for level 0 goes behind all of its tables. -/

namespace Version

/-- The tables read before the place of an output for level `depth`. -/
def front (version : Version fmt) : Nat → List (SsTable fmt)
  | 0 => version.level 0
  | depth + 1 => (version.levels.take (depth + 1)).flatten

/-- The tables among which an output for level `depth` takes its place. -/
def seat (version : Version fmt) : Nat → List (SsTable fmt)
  | 0 => []
  | depth + 1 => version.level (depth + 1)

/-- The tables read after the place of an output for level `depth`. -/
def back (version : Version fmt) (depth : Nat) : List (SsTable fmt) :=
  (version.levels.drop (depth + 1)).flatten

theorem levels_split {version : Version fmt} {depth : Nat}
    (inside : depth < version.levels.length) :
    version.levels = version.levels.take depth ++ version.level depth ::
      version.levels.drop (depth + 1) := by
  have here : version.level depth = version.levels[depth] := by
    rw [level, List.getElem?_eq_getElem inside, Option.getD_some]
  rw [here, ← List.drop_eq_getElem_cons inside, List.take_append_drop]

theorem tables_split {version : Version fmt} {depth : Nat}
    (inside : depth < version.levels.length) :
    version.tablesNewestFirst = version.front depth ++ version.seat depth ++ version.back depth := by
  have split := congrArg List.flatten (levels_split inside)
  rw [tablesNewestFirst_eq, split, List.flatten_append, List.flatten_cons]
  cases depth with
  | zero => simp [front, seat, back]
  | succ depth => simp [front, seat, back]

end Version

/-- A job may be installed in a version with its output at level
`job.outputLevel`: the inputs lie before that place or in that level, in the
version's order; a table that stays behind an input shares no key with it;
dropped tombstones hide nothing further down; and no table that stays in the
output's level meets an interval spanned by two inputs. -/
structure Admissible (content : SsTable fmt → List (Key × Entry)) (version : Version fmt)
    (job : CompactionJob fmt) (drops : Bool) : Prop where
  inside : job.outputLevel < version.levels.length
  sub : job.inputs.Sublist (version.front job.outputLevel ++ version.seat job.outputLevel)
  order : (version.front job.outputLevel ++ version.seat job.outputLevel).Pairwise
    fun first second => job.takes first = true → job.takes second = false →
      ∀ key, entryIn content key first ≠ none → entryIn content key second = none
  dropped : drops = true → ∀ input ∈ job.inputs, ∀ table ∈ version.back job.outputLevel,
    ∀ key, entryIn content key input ≠ none → entryIn content key table = none
  hull : ∀ table ∈ version.seat job.outputLevel, job.takes table = false →
    table.vacant = true ∨ ∀ first ∈ job.inputs, ∀ second ∈ job.inputs,
      Apart table.smallestKey table.largestKey first.smallestKey second.largestKey

namespace WellLevelled

variable {content : SsTable fmt → List (Key × Entry)} {version : Version fmt}
  {job : CompactionJob fmt}

/-- In a version with distinct ids, a table with the id of an input is that input. -/
theorem mem_inputs_of_takes (levelled : WellLevelled content version)
    (inVersion : ∀ input ∈ job.inputs, input ∈ version.tablesNewestFirst) {table : SsTable fmt}
    (member : table ∈ version.tablesNewestFirst) (taken : job.takes table = true) :
    table ∈ job.inputs := by
  obtain ⟨input, isInput, sameId⟩ := CompactionJob.takes_iff.mp taken
  have same : input = table :=
    List.inj_on_of_nodup_map levelled.distinct (inVersion input isInput) member sameId
  rw [← same]
  exact isInput

/-- Tombstones are dropped only when no deeper table shares a key with an input. -/
theorem dropped_of_dropTombstones (levelled : WellLevelled content version) {options : Options}
    (depth : version.levels.length = options.maxLevels)
    (inVersion : ∀ input ∈ job.inputs, input ∈ version.tablesNewestFirst)
    (drops : dropTombstones version options job = true) :
    ∀ input ∈ job.inputs, ∀ table ∈ version.back job.outputLevel,
      ∀ key, entryIn content key input ≠ none → entryIn content key table = none := by
  intro input isInput table inBack key found
  obtain ⟨tables, isLevel, member⟩ := List.mem_flatten.mp inBack
  have inTables : table ∈ version.tablesNewestFirst := by
    rw [Version.tablesNewestFirst_eq]
    exact List.mem_flatten.mpr ⟨tables, List.mem_of_mem_drop isLevel, member⟩
  rcases Bool.or_eq_true _ _ ▸ drops with last | clear
  · -- The output goes into the last level, so nothing lies behind it.
    have none_ : version.levels.drop (job.outputLevel + 1) = [] := by
      rw [List.drop_eq_nil_iff, depth]
      exact of_decide_eq_true last
    rw [none_] at isLevel
    cases isLevel
  · have noOverlap : overlaps table input.smallestKey input.largestKey = false := by
      by_contra meets
      have low : lowerOverlap version job = true :=
        List.any_eq_true.mpr ⟨tables, isLevel, List.any_eq_true.mpr ⟨table, member,
          List.any_eq_true.mpr ⟨input, isInput, by simpa using meets⟩⟩⟩
      rw [low] at clear
      cases clear
    refine (levelled.ranged input (inVersion input isInput)).entryIn_eq_none_of_apart
      (levelled.ranged table inTables) ?_ found
    by_cases empty : table.vacant = true
    · exact .inr (.inl empty)
    · refine .inr (.inr ?_)
      by_contra meets
      obtain ⟨low, high⟩ := not_apart_iff.mp meets
      have overlapping : overlaps table input.smallestKey input.largestKey = true :=
        overlaps_iff.mpr ⟨by simpa using empty, low, high⟩
      rw [noOverlap] at overlapping
      cases overlapping

end WellLevelled

/-! ## Picked jobs are admissible -/

/-- What `pickLevel` returns: the first table of some level that is not the last,
with the tables it overlaps one level deeper. -/
theorem pickLevel_eq_some {version : Version fmt} {options : Options} {job : CompactionJob fmt}
    {remaining depth limit : Nat} (positive : 1 ≤ depth)
    (picked : pickLevel version options remaining depth limit = .ok (some job)) :
    ∃ found victim others, 1 ≤ found ∧ found < depth + remaining ∧
      version.levels[found]? = some (victim :: others) ∧
      job = ⟨victim :: (version.level (found + 1)).filter fun table =>
        overlaps table victim.smallestKey victim.largestKey, found + 1⟩ := by
  induction remaining generalizing depth limit with
  | zero => cases picked
  | succ remaining ih =>
      rw [pickLevel] at picked
      split at picked
      · cases picked
      · rename_i tables isLevel
        dsimp only at picked
        split at picked
        · cases picked
        · split at picked
          · cases tables with
            | nil => cases picked
            | cons victim others =>
                cases picked
                exact ⟨depth, victim, others, positive, by omega, isLevel, rfl⟩
          · obtain ⟨found, victim, others, low, high, rest⟩ := ih (by omega) picked
            exact ⟨found, victim, others, low, by omega, rest⟩

theorem pickLevel_error {version : Version fmt} {options : Options} {failure : Failure}
    {remaining depth limit : Nat}
    (failed : pickLevel version options remaining depth limit = .error failure) :
    failure = .panic := by
  induction remaining generalizing depth limit with
  | zero => cases failed
  | succ remaining ih =>
      rw [pickLevel] at failed
      split at failed
      · cases failed
      · rename_i tables _
        dsimp only at failed
        split at failed
        · cases failed
          rfl
        · split at failed
          · cases tables <;> cases failed
          · exact ih failed

/-- The picker fails only by overflow. -/
theorem pickCompaction_error {version : Version fmt} {options : Options} {failure : Failure}
    (failed : pickCompaction version options = .error failure) : failure = .panic := by
  unfold pickCompaction at failed
  split at failed
  · cases failed
  · split at failed
    · cases failed
    · dsimp only at failed
      split at failed
      · cases failed
        rfl
      · exact pickLevel_error failed

/-- The two kinds of jobs. -/
theorem pickCompaction_eq_some {version : Version fmt} {options : Options}
    {job : CompactionJob fmt} (picked : pickCompaction version options = .ok (some job)) :
    (∃ l0 deeper, version.levels = l0 :: deeper ∧ options.l0CompactionTrigger ≤ l0.length ∧
      job = ⟨l0 ++ (version.level 1).filter fun table =>
        overlaps table (span l0).1 (span l0).2, min 1 (options.maxLevels - 1)⟩) ∨
    ∃ depth victim others, 1 ≤ depth ∧ depth + 1 < options.maxLevels ∧
      version.levels[depth]? = some (victim :: others) ∧
      job = ⟨victim :: (version.level (depth + 1)).filter fun table =>
        overlaps table victim.smallestKey victim.largestKey, depth + 1⟩ := by
  unfold pickCompaction at picked
  split at picked
  · cases picked
  · rename_i l0 deeper isLevels
    split at picked
    · rename_i long
      cases picked
      exact .inl ⟨l0, deeper, isLevels, long, rfl⟩
    · dsimp only at picked
      split at picked
      · cases picked
      · obtain ⟨depth, victim, others, low, high, isLevel, isJob⟩ :=
          pickLevel_eq_some (le_refl 1) picked
        exact .inr ⟨depth, victim, others, low, by omega, isLevel, isJob⟩

/-- The inputs of a picked job are tables of the version. -/
theorem inputs_mem_of_pick {version : Version fmt} {options : Options} {job : CompactionJob fmt}
    (picked : pickCompaction version options = .ok (some job)) :
    ∀ input ∈ job.inputs, input ∈ version.tablesNewestFirst := by
  intro input isInput
  rw [Version.mem_tables_iff]
  rcases pickCompaction_eq_some picked with ⟨l0, deeper, isLevels, _, rfl⟩ |
    ⟨depth, victim, others, _, _, isLevel, rfl⟩
  · rcases List.mem_append.mp isInput with top | below
    · exact ⟨0, by rw [Version.level, isLevels]; exact top⟩
    · exact ⟨1, List.mem_of_mem_filter below⟩
  · rcases List.mem_cons.mp isInput with rfl | below
    · exact ⟨depth, by rw [Version.level, isLevel]; exact List.mem_cons_self⟩
    · exact ⟨depth + 1, List.mem_of_mem_filter below⟩

/-- The output of a picked job has a level to go to. -/
theorem outputLevel_lt_of_pick {version : Version fmt} {options : Options}
    {job : CompactionJob fmt} (depth : version.levels.length = options.maxLevels)
    (picked : pickCompaction version options = .ok (some job)) :
    job.outputLevel < version.levels.length := by
  rcases pickCompaction_eq_some picked with ⟨l0, deeper, isLevels, _, rfl⟩ |
    ⟨found, victim, others, _, high, _, rfl⟩
  · have one : 1 ≤ version.levels.length := by
      rw [isLevels]
      exact Nat.succ_le_succ (Nat.zero_le _)
    dsimp only
    omega
  · dsimp only
    omega

namespace WellLevelled

variable {content : SsTable fmt → List (Key × Entry)} {version : Version fmt}

/-- Two tables of a deeper level have disjoint ranges. -/
theorem apart_of_level (levelled : WellLevelled content version) {depth : Nat}
    (positive : 1 ≤ depth) {first second : SsTable fmt} (member : first ∈ version.level depth)
    (member' : second ∈ version.level depth) (different : first ≠ second) :
    RangesApart first second := by
  have symmetric : Std.Symm (RangesApart : SsTable fmt → SsTable fmt → Prop) :=
    ⟨fun _ _ apart => apart.symm⟩
  exact List.Pairwise.forall (levelled.disjoint depth positive) member member' different

/-- A job that takes some tables above a level, and every table of that level
which overlaps an interval around their ranges, is admissible, provided that no
table which stays above shares a key with an input in front of it. -/
theorem admissible_of_star (levelled : WellLevelled content version) {depth : Nat}
    (inside : depth + 1 < version.levels.length) {chosen : List (SsTable fmt)} {small large : Key}
    {job : CompactionJob fmt} (levelEq : job.outputLevel = depth + 1)
    (inputsEq : job.inputs = chosen ++ (version.level (depth + 1)).filter fun table =>
      overlaps table small large)
    (sub : chosen.Sublist (version.front (depth + 1)))
    (bounds : ∀ table ∈ chosen, small ≤ table.smallestKey ∧ table.largestKey ≤ large)
    (frontOrder : (version.front (depth + 1)).Pairwise fun first second =>
      first ∈ chosen → job.takes second = false →
        ∀ key, entryIn content key first ≠ none → entryIn content key second = none)
    {drops : Bool} (dropped : drops = true → ∀ input ∈ job.inputs,
      ∀ table ∈ version.back job.outputLevel, ∀ key, entryIn content key input ≠ none →
        entryIn content key table = none) :
    Admissible content version job drops := by
  have tables := Version.tables_split inside
  have inFront : ∀ table ∈ version.front (depth + 1), table ∈ version.tablesNewestFirst := by
    intro table member
    rw [tables]
    exact List.mem_append_left _ (List.mem_append_left _ member)
  have inputCases : ∀ input ∈ job.inputs, input ∈ chosen ∨
      input ∈ version.level (depth + 1) ∧ overlaps input small large = true := by
    intro input member
    rw [inputsEq] at member
    exact (List.mem_append.mp member).imp_right List.mem_filter.mp
  have inputsInside : ∀ input ∈ job.inputs, input ∈ version.tablesNewestFirst := by
    intro input member
    rcases inputCases input member with above | ⟨level, _⟩
    · exact inFront input (sub.subset above)
    · exact Version.mem_tables_iff.mpr ⟨_, level⟩
  -- Ids are distinct, so a table above the level that is taken is one of the chosen.
  have frontTaken : ∀ table ∈ version.front (depth + 1), job.takes table = true →
      table ∈ chosen := by
    intro table member taken
    have isInput := levelled.mem_inputs_of_takes inputsInside (inFront table member) taken
    rcases inputCases table isInput with above | ⟨level, _⟩
    · exact above
    · have nodup := levelled.distinct
      rw [tables, List.map_append, List.map_append] at nodup
      have apart := List.disjoint_of_nodup_append (List.Nodup.of_append_left nodup)
      exact absurd (List.mem_map_of_mem level) (apart (List.mem_map_of_mem member))
  have staysApart : ∀ table ∈ version.level (depth + 1), job.takes table = false →
      table.vacant = true ∨ Apart table.smallestKey table.largestKey small large := by
    intro table member stays
    by_cases empty : table.vacant = true
    · exact .inl empty
    · refine .inr ?_
      by_contra meets
      obtain ⟨low, high⟩ := not_apart_iff.mp meets
      have overlapping := overlaps_iff.mpr ⟨by simpa using empty, high, low⟩
      have isInput : table ∈ job.inputs := by
        rw [inputsEq]
        exact List.mem_append_right _ (List.mem_filter.mpr ⟨member, overlapping⟩)
      rw [CompactionJob.takes_of_mem isInput] at stays
      cases stays
  refine ⟨by rw [levelEq]; exact inside, ?_, ?_, dropped, ?_⟩
  · rw [inputsEq, levelEq]
    exact sub.append List.filter_sublist
  · rw [levelEq]
    refine List.pairwise_append.mpr ⟨?_, ?_, ?_⟩
    · refine frontOrder.imp_of_mem fun {first second} member _ disjoint taken stays => ?_
      exact disjoint (frontTaken first member taken) stays
    · refine (levelled.disjoint (depth + 1) (by omega)).imp_of_mem ?_
      intro first second member member' apart _ _ key found
      exact (levelled.ranged_of_level member).entryIn_eq_none_of_apart
        (levelled.ranged_of_level member') apart found
    · -- A table of the level that stays does not reach the range of the chosen ones.
      intro first member second member' taken stays key found
      have isChosen := frontTaken first member taken
      obtain ⟨low, high⟩ := (levelled.ranged first (inFront first member)).range_of_entryIn found
      obtain ⟨smallLe, leLarge⟩ := bounds first isChosen
      by_contra alsoFound
      have ranged := levelled.ranged_of_level member'
      rcases staysApart second member' stays with empty | apart
      · rw [ranged.not_vacant_of_entryIn alsoFound] at empty
        cases empty
      · obtain ⟨low', high'⟩ := ranged.range_of_entryIn alsoFound
        exact apart.not_mem low' high' (le_trans smallLe low) (le_trans high leLarge)
  · rw [levelEq]
    intro table member stays
    by_cases empty : table.vacant = true
    · exact .inl empty
    refine .inr fun first isInput second isInput' => ?_
    have apartBase := (staysApart table member stays).resolve_left empty
    have inStar : ∀ input ∈ job.inputs, ∀ key, input.smallestKey ≤ key → key ≤ input.largestKey →
        (small ≤ key ∧ key ≤ large) ∨
          ∃ satellite ∈ (version.level (depth + 1)).filter fun table => overlaps table small large,
            satellite.smallestKey ≤ key ∧ key ≤ satellite.largestKey := by
      intro input isInput key low high
      rcases inputCases input isInput with above | level
      · obtain ⟨smallLe, leLarge⟩ := bounds input above
        exact .inl ⟨le_trans smallLe low, le_trans high leLarge⟩
      · exact .inr ⟨input, List.mem_filter.mpr level, low, high⟩
    refine apart_hull_of_apart_star ((version.level (depth + 1)).filter fun table =>
      overlaps table small large) SsTable.smallestKey SsTable.largestKey ?_
      (levelled.ranged_of_level member).smallest_le_largest apartBase ?_
      (inStar first isInput _ (le_refl _)
        (levelled.ranged first (inputsInside first isInput)).smallest_le_largest)
      (inStar second isInput' _
        (levelled.ranged second (inputsInside second isInput')).smallest_le_largest (le_refl _))
    · intro satellite isSatellite
      obtain ⟨_, meets⟩ := List.mem_filter.mp isSatellite
      obtain ⟨_, low, high⟩ := overlaps_iff.mp meets
      exact not_apart_iff.mpr ⟨high, low⟩
    · intro satellite isSatellite
      obtain ⟨inLevel, meets⟩ := List.mem_filter.mp isSatellite
      have different : table ≠ satellite := by
        rintro rfl
        have isInput : table ∈ job.inputs := by
          rw [inputsEq]
          exact List.mem_append_right _ isSatellite
        rw [CompactionJob.takes_of_mem isInput] at stays
        cases stays
      rcases levelled.apart_of_level (by omega) member inLevel different with h | h | apart
      · exact absurd h empty
      · rw [(overlaps_iff.mp meets).1] at h
        cases h
      · exact apart

/-- **A picked job is admissible in the version it is picked in.** -/
theorem admissible_of_pick (levelled : WellLevelled content version) {options : Options}
    (depth : version.levels.length = options.maxLevels) {job : CompactionJob fmt}
    (picked : pickCompaction version options = .ok (some job)) :
    Admissible content version job (dropTombstones version options job) := by
  rcases pickCompaction_eq_some picked with ⟨l0, deeper, isLevels, _, rfl⟩ |
    ⟨found, victim, others, low, high, isLevel, rfl⟩
  · have level0 : version.level 0 = l0 := by rw [Version.level, isLevels]; rfl
    cases deeper with
    | nil =>
        -- A single level: the job takes all of it and puts the output behind nothing.
        have one : options.maxLevels = 1 := by rw [← depth, isLevels]; rfl
        have level1 : version.level 1 = [] := by rw [Version.level, isLevels]; rfl
        have front0 : version.front 0 = l0 := level0
        have back0 : version.back 0 = [] := by rw [Version.back, isLevels]; rfl
        simp only [level1, one, List.filter_nil, List.append_nil, Nat.sub_self, Nat.min_zero]
        refine ⟨by rw [isLevels]; exact Nat.one_pos, ?_, ?_, ?_, ?_⟩
        · rw [front0]
          exact List.sublist_append_left _ _
        · refine List.pairwise_of_forall_mem_list fun first _ second member _ stays => ?_
          have inInputs : second ∈ l0 := by simpa [front0, Version.seat] using member
          rw [CompactionJob.takes_of_mem (show second ∈ CompactionJob.inputs ⟨l0, 0⟩ from inInputs)]
            at stays
          cases stays
        · intro _ input _ table inBack
          rw [back0] at inBack
          cases inBack
        · intro table member
          cases member
    | cons l1 deeper =>
        have more : min 1 (options.maxLevels - 1) = 1 := by
          rw [← depth, isLevels]
          simp
        have front1 : version.front 1 = l0 := by simp [Version.front, isLevels]
        have inside : 0 + 1 < version.levels.length := by rw [isLevels]; simp
        refine levelled.admissible_of_star inside more rfl (by rw [front1]) ?_ ?_ ?_
        · exact fun table member => span_contains member
        · rw [front1]
          refine List.pairwise_of_forall_mem_list fun first _ second member _ stays => ?_
          rw [CompactionJob.takes_of_mem (List.mem_append_left _ member)] at stays
          cases stays
        · refine levelled.dropped_of_dropTombstones depth fun input isInput => ?_
          rcases List.mem_append.mp isInput with above | level
          · exact Version.mem_tables_iff.mpr ⟨0, by rw [level0]; exact above⟩
          · exact Version.mem_tables_iff.mpr ⟨1, List.mem_of_mem_filter level⟩
  · have here : version.level found = victim :: others := by rw [Version.level, isLevel]; rfl
    have inside : found + 1 < version.levels.length := by rw [depth]; exact high
    have front : version.front (found + 1) =
        (version.levels.take found).flatten ++ (victim :: others) := by
      rw [Version.front, List.take_add_one, isLevel]
      simp
    refine levelled.admissible_of_star inside rfl
      (List.singleton_append.symm : victim :: _ = [victim] ++ _) ?_ ?_ ?_ ?_
    · rw [front]
      exact (List.singleton_sublist.mpr List.mem_cons_self).trans (List.sublist_append_right _ _)
    · intro table member
      rw [List.mem_singleton.mp member]
      exact ⟨le_refl _, le_refl _⟩
    · -- The victim is the first table of its level, and the level is disjoint.
      have nodup := levelled.distinct
      rw [Version.tables_split inside, front, List.map_append, List.map_append,
        List.map_append] at nodup
      have apartAbove := List.disjoint_of_nodup_append
        (List.Nodup.of_append_left (List.Nodup.of_append_left nodup))
      have victimElsewhere : victim ∉ (version.levels.take found).flatten := fun member =>
        apartAbove (List.mem_map_of_mem member) (List.mem_map_of_mem List.mem_cons_self)
      have disjoint := levelled.disjoint found low
      rw [here] at disjoint
      rw [front]
      refine List.pairwise_append.mpr ⟨?_, ?_, ?_⟩
      · refine List.pairwise_of_forall_mem_list fun first member second _ isVictim => ?_
        rw [List.mem_singleton.mp isVictim] at member
        exact absurd member victimElsewhere
      · rw [← here] at disjoint ⊢
        refine disjoint.imp_of_mem ?_
        intro first second member member' apart _ _ key found
        exact (levelled.ranged_of_level member).entryIn_eq_none_of_apart
          (levelled.ranged_of_level member') apart found
      · intro first member second _ isVictim
        rw [List.mem_singleton.mp isVictim] at member
        exact absurd member victimElsewhere
    · refine levelled.dropped_of_dropTombstones depth fun input isInput => ?_
      rcases List.mem_cons.mp isInput with rfl | level
      · exact Version.mem_tables_iff.mpr ⟨found, by rw [here]; exact List.mem_cons_self⟩
      · exact Version.mem_tables_iff.mpr ⟨found + 1, List.mem_of_mem_filter level⟩

end WellLevelled

end LsmStore
