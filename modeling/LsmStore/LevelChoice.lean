import LsmStore.Compaction

/-!
# Which level is compacted

Level 0 is compacted once it has enough tables.  Otherwise the picker goes down the
levels with a running size limit, which starts as a product of two options and is
multiplied at each level; from level 1 on the products saturate at the largest word, and
so the limit of each level is the documented one (`levelLimit_eq`).  Nothing is picked
exactly if level 0 is below its trigger and every level between level 0 and the last one
is within its limit (`pickCompaction_none_iff`).

The first product does not saturate: it is only computed while level 0 is below its
trigger, and then it must stay below `2 ^ 64` (`level_choice_exact`).
-/

set_option autoImplicit false

namespace LsmStore

open Foundation

variable {fmt : TableFormat}

/-! ## When nothing is picked -/

/-- How many bytes the tables of a level have. -/
def Version.levelBytes (version : Version fmt) (depth : Nat) : Nat :=
  ((version.level depth).map SsTable.sizeBytes).sum

/-- The size limit of level `depth + 1`. -/
def levelLimit (options : Options) : Nat → Nat
  | 0 => options.memtableSizeBytes * options.l0CompactionTrigger
  | depth + 1 => min (levelLimit options depth * options.levelSizeMultiplier) u64Max

/-- The job for a table of a level: what it overlaps one level deeper goes with it. -/
def levelJob (version : Version fmt) (depth : Nat) (victim : SsTable fmt) : CompactionJob fmt :=
  ⟨victim :: (version.level (depth + 1)).filter fun table =>
    overlaps table victim.smallestKey victim.largestKey, depth + 1⟩

/-- The job for all of level 0, with what it overlaps in level 1. -/
def levelZeroJob (options : Options) (version : Version fmt) : CompactionJob fmt :=
  ⟨version.level 0 ++ (version.level 1).filter fun table =>
    overlaps table (span (version.level 0)).1 (span (version.level 0)).2,
    min 1 (options.maxLevels - 1)⟩

/-- No level between level 0 and the last one is larger than its limit. -/
def WithinLimits (options : Options) (version : Version fmt) : Prop :=
  ∀ depth, depth + 2 < options.maxLevels →
    version.levelBytes (depth + 1) ≤ levelLimit options depth

theorem levelLimit_le {options : Options}
    (small : options.memtableSizeBytes * options.l0CompactionTrigger ≤ u64Max) (depth : Nat) :
    levelLimit options depth ≤ u64Max := by
  cases depth with
  | zero => exact small
  | succ depth => exact Nat.min_le_right _ _

theorem Version.getElem?_level {version : Version fmt} {depth : Nat}
    (inside : depth < version.levels.length) :
    version.levels[depth]? = some (version.level depth) := by
  rw [Version.level, List.getElem?_eq_getElem inside, Option.getD_some]

/-- The loop goes on past a level within its limit. -/
theorem pickLevel_of_within {version : Version fmt} {options : Options}
    (small : options.memtableSizeBytes * options.l0CompactionTrigger ≤ u64Max)
    {remaining depth : Nat} (inside : depth + 1 < version.levels.length)
    (within : version.levelBytes (depth + 1) ≤ levelLimit options depth) :
    pickLevel version options (remaining + 1) (depth + 1) (levelLimit options depth) =
      pickLevel version options remaining (depth + 2) (levelLimit options (depth + 1)) := by
  have limit := levelLimit_le small depth
  have size : ((version.level (depth + 1)).map SsTable.sizeBytes).sum =
    version.levelBytes (depth + 1) := rfl
  rw [pickLevel, Version.getElem?_level inside]
  dsimp only
  rw [size, if_neg (by omega), if_neg (by omega)]
  rfl

/-- The loop stops at a level above its limit, with a job for its first table. -/
theorem pickLevel_of_large {version : Version fmt} {options : Options} {remaining depth : Nat}
    (inside : depth + 1 < version.levels.length)
    (sizes : version.levelBytes (depth + 1) ≤ u64Max)
    (large : levelLimit options depth < version.levelBytes (depth + 1)) :
    ∃ victim others, version.level (depth + 1) = victim :: others ∧
      pickLevel version options (remaining + 1) (depth + 1) (levelLimit options depth) =
        .ok (some (levelJob version (depth + 1) victim)) := by
  have size : ((version.level (depth + 1)).map SsTable.sizeBytes).sum =
    version.levelBytes (depth + 1) := rfl
  cases tables : version.level (depth + 1) with
  | nil => simp [Version.levelBytes, tables] at large
  | cons victim others =>
      refine ⟨victim, others, rfl, ?_⟩
      rw [pickLevel, Version.getElem?_level inside]
      dsimp only
      rw [size, if_neg (by omega), if_pos large, tables]
      rfl

/-- The loop over the levels picks nothing if every level it looks at is small enough. -/
theorem pickLevel_none_iff {version : Version fmt} {options : Options}
    (small : options.memtableSizeBytes * options.l0CompactionTrigger ≤ u64Max)
    {remaining depth : Nat} (inside : depth + remaining < version.levels.length) :
    pickLevel version options remaining (depth + 1) (levelLimit options depth) = .ok none ↔
      ∀ offset < remaining,
        version.levelBytes (depth + offset + 1) ≤ levelLimit options (depth + offset) := by
  induction remaining generalizing depth with
  | zero => simp [pickLevel]
  | succ remaining ih =>
      by_cases within : version.levelBytes (depth + 1) ≤ levelLimit options depth
      · rw [pickLevel_of_within small (by omega) within, ih (by omega)]
        constructor
        · intro rest offset below
          cases offset with
          | zero => exact within
          | succ offset =>
              have later := rest offset (by omega)
              rwa [show depth + 1 + offset = depth + (offset + 1) by omega] at later
        · intro all offset below
          have later := all (offset + 1) (by omega)
          rwa [show depth + (offset + 1) = depth + 1 + offset by omega] at later
      · refine ⟨fun nothing => ?_, fun all => absurd (all 0 (by omega)) within⟩
        by_cases sizes : version.levelBytes (depth + 1) ≤ u64Max
        · obtain ⟨_, _, _, picked⟩ :=
            @pickLevel_of_large _ version options remaining depth (by omega) sizes (by omega)
          rw [picked] at nothing
          cases nothing
        · have huge : ((version.level (depth + 1)).map SsTable.sizeBytes).sum > u64Max :=
            Nat.lt_of_not_le sizes
          rw [pickLevel, Version.getElem?_level (by omega)] at nothing
          dsimp only at nothing
          rw [if_pos huge] at nothing
          cases nothing

/-- The picker at the trigger of level 0. -/
theorem pickCompaction_of_long {version : Version fmt} {options : Options}
    (present : 0 < version.levels.length)
    (long : options.l0CompactionTrigger ≤ (version.level 0).length) :
    pickCompaction version options = .ok (some (levelZeroJob options version)) := by
  obtain ⟨levels⟩ := version
  cases levels with
  | nil => cases present
  | cons l0 deeper =>
      rw [pickCompaction]
      exact if_pos long

/-- The picker below the trigger of level 0. -/
theorem pickCompaction_of_short {version : Version fmt} {options : Options}
    (present : 0 < version.levels.length)
    (short : (version.level 0).length < options.l0CompactionTrigger) :
    pickCompaction version options =
      if options.memtableSizeBytes * options.l0CompactionTrigger > u64Max then .error .panic
      else pickLevel version options (options.maxLevels - 1 - 1) 1 (levelLimit options 0) := by
  obtain ⟨levels⟩ := version
  cases levels with
  | nil => cases present
  | cons l0 deeper =>
      have below : ¬ l0.length ≥ options.l0CompactionTrigger := Nat.not_le.mpr short
      rw [pickCompaction]
      exact if_neg below

/-- **Nothing is picked** exactly if level 0 is below its trigger and the deeper levels
are within their limits. -/
theorem pickCompaction_none_iff {version : Version fmt} {options : Options}
    (small : options.memtableSizeBytes * options.l0CompactionTrigger ≤ u64Max)
    (positive : 1 ≤ options.maxLevels) (depth : version.levels.length = options.maxLevels) :
    pickCompaction version options = .ok none ↔
      (version.level 0).length < options.l0CompactionTrigger ∧ WithinLimits options version := by
  by_cases short : (version.level 0).length < options.l0CompactionTrigger
  · rw [pickCompaction_of_short (by omega) short, if_neg (Nat.not_lt.mpr small),
      pickLevel_none_iff small (by rw [depth]; omega)]
    refine ⟨fun all => ⟨short, fun level below => ?_⟩, fun both level below => ?_⟩
    · have here := all level (by omega)
      rwa [Nat.zero_add] at here
    · rw [Nat.zero_add]
      exact both.2 level (by omega)
  · rw [pickCompaction_of_long (by omega) (Nat.le_of_not_lt short)]
    exact ⟨nofun, fun both => absurd both.1 short⟩

/-! ## The documented choice -/

/-- The documented size limit of a level. -/
def sizeLimit (options : Options) (depth : Nat) : Nat :=
  min (2 ^ 64 - 1) (options.memtableSizeBytes * options.l0CompactionTrigger *
    options.levelSizeMultiplier ^ (depth - 1))

/-- A level between level 0 and the last one that is above its limit. -/
def Oversized (options : Options) (version : Version fmt) (depth : Nat) : Prop :=
  1 ≤ depth ∧ depth < options.maxLevels - 1 ∧ sizeLimit options depth < version.levelBytes depth

instance (options : Options) (version : Version fmt) :
    DecidablePred (Oversized options version) :=
  fun _ => inferInstanceAs (Decidable (_ ∧ _ ∧ _))

/-- What is to be compacted: level 0 once it is long enough, otherwise the first table of
the least oversized level. -/
inductive Choice (options : Options) (version : Version fmt) :
    Option (CompactionJob fmt) → Prop where
  | top (long : options.l0CompactionTrigger ≤ (version.level 0).length) :
      Choice options version (some (levelZeroJob options version))
  | deeper (short : (version.level 0).length < options.l0CompactionTrigger) {depth : Nat}
      (least : IsLeast {depth | Oversized options version depth} depth) {victim : SsTable fmt}
      {others : List (SsTable fmt)} (tables : version.level depth = victim :: others) :
      Choice options version (some (levelJob version depth victim))
  | nothing (short : (version.level 0).length < options.l0CompactionTrigger)
      (within : ∀ depth, ¬ Oversized options version depth) : Choice options version none

/-- There is one choice. -/
theorem Choice.unique {options : Options} {version : Version fmt}
    {first second : Option (CompactionJob fmt)} (one : Choice options version first)
    (other : Choice options version second) : first = second := by
  cases one with
  | top long =>
      cases other with
      | top => rfl
      | deeper short => omega
      | nothing short => omega
  | deeper short least tables =>
      cases other with
      | top long => omega
      | deeper _ least' tables' =>
          cases least.unique least'
          rw [tables] at tables'
          cases tables'
          rfl
      | nothing _ within => exact absurd least.1 (within _)
  | nothing short within =>
      cases other with
      | top long => omega
      | deeper _ least => exact absurd least.1 (within _)
      | nothing => rfl

/-- A product of saturated factors saturates where the product does. -/
theorem min_mul_min (bound number factor : Nat) :
    min (min bound number * factor) bound = min bound (number * factor) := by
  rcases Nat.le_total number bound with small | large
  · rw [min_eq_right small, min_comm]
  · rw [min_eq_left large]
    rcases Nat.eq_zero_or_pos factor with rfl | positive
    · simp
    · rw [min_eq_right (Nat.le_mul_of_pos_right _ positive),
        min_eq_left (large.trans (Nat.le_mul_of_pos_right _ positive))]

/-- **The running limit is the documented one**, if its first product fits. -/
theorem levelLimit_eq {options : Options}
    (small : options.memtableSizeBytes * options.l0CompactionTrigger ≤ u64Max) (depth : Nat) :
    levelLimit options depth = sizeLimit options (depth + 1) := by
  induction depth with
  | zero =>
      rw [sizeLimit, Nat.zero_add, Nat.sub_self, Nat.pow_zero, Nat.mul_one]
      exact (min_eq_right small).symm
  | succ depth ih =>
      rw [levelLimit, ih, sizeLimit, sizeLimit, Nat.add_sub_cancel, Nat.add_sub_cancel,
        pow_succ options.levelSizeMultiplier depth, ← Nat.mul_assoc]
      exact min_mul_min _ _ _

/-- The loop stops at the first level above its limit. -/
theorem pickLevel_first {version : Version fmt} {options : Options}
    (small : options.memtableSizeBytes * options.l0CompactionTrigger ≤ u64Max)
    (sizes : ∀ depth, version.levelBytes depth ≤ u64Max) {remaining depth : Nat}
    (inside : depth + remaining < version.levels.length) {offset : Nat} (within : offset < remaining)
    (large : levelLimit options (depth + offset) < version.levelBytes (depth + offset + 1))
    (before : ∀ earlier < offset,
      version.levelBytes (depth + earlier + 1) ≤ levelLimit options (depth + earlier)) :
    ∃ victim others, version.level (depth + offset + 1) = victim :: others ∧
      pickLevel version options remaining (depth + 1) (levelLimit options depth) =
        .ok (some (levelJob version (depth + offset + 1) victim)) := by
  induction offset generalizing depth remaining with
  | zero =>
      obtain ⟨rest, rfl⟩ := Nat.exists_eq_add_one_of_ne_zero (Nat.ne_of_gt within)
      exact pickLevel_of_large (by omega) (sizes _) large
  | succ offset ih =>
      obtain ⟨rest, rfl⟩ := Nat.exists_eq_add_one_of_ne_zero (Nat.ne_of_gt (Nat.zero_lt_of_lt within))
      rw [pickLevel_of_within small (by omega) (before 0 (by omega))]
      have shifted : depth + (offset + 1) = depth + 1 + offset := by omega
      rw [shifted] at large ⊢
      refine ih (by omega) (by omega) large fun earlier less => ?_
      have later := before (earlier + 1) (by omega)
      rwa [show depth + (earlier + 1) = depth + 1 + earlier by omega] at later

section Exact

variable {options : Options} {version : Version fmt}

theorem not_oversized_iff
    (small : options.memtableSizeBytes * options.l0CompactionTrigger ≤ u64Max) :
    (∀ depth, ¬ Oversized options version depth) ↔ WithinLimits options version := by
  constructor
  · intro within depth inside
    rw [levelLimit_eq small]
    by_contra large
    exact within (depth + 1) ⟨by omega, by omega, by omega⟩
  · rintro within depth ⟨positive, inside, large⟩
    obtain ⟨before, rfl⟩ := Nat.exists_eq_add_of_le' positive
    have small' := within before (by omega)
    rw [levelLimit_eq small] at small'
    omega

/-- The loop picks from the least oversized level. -/
theorem pickLevel_least
    (small : options.memtableSizeBytes * options.l0CompactionTrigger ≤ u64Max)
    (depth : version.levels.length = options.maxLevels)
    (sizes : ∀ depth, version.levelBytes depth ≤ u64Max) {found : Nat}
    (least : IsLeast {depth | Oversized options version depth} found) :
    ∃ victim others, version.level found = victim :: others ∧
      pickLevel version options (options.maxLevels - 1 - 1) 1 (levelLimit options 0) =
        .ok (some (levelJob version found victim)) := by
  obtain ⟨⟨positive, inside, large⟩, lower⟩ := least
  obtain ⟨before, rfl⟩ := Nat.exists_eq_add_of_le' positive
  have first := @pickLevel_first fmt version options small sizes (options.maxLevels - 1 - 1) 0
    (by rw [depth]; omega) before (by omega)
  rw [Nat.zero_add] at first
  refine first ?_ ?_
  · rw [levelLimit_eq small]
    exact large
  · intro earlier less
    rw [Nat.zero_add, levelLimit_eq small]
    by_contra above
    have notLess := lower (show Oversized options version (earlier + 1) from
      ⟨by omega, by omega, by omega⟩)
    omega

/-- **The level selection is the documented one exactly if its first product fits.**  For
every version with the configured number of levels, whose tables have fewer than `2 ^ 64`
bytes in each level, the picker returns the one documented choice if level 0 has reached
its trigger or the limit of level 1 is below `2 ^ 64`; otherwise it returns nothing. -/
theorem level_choice_exact (positive : 1 ≤ options.maxLevels)
    (depth : version.levels.length = options.maxLevels)
    (sizes : ∀ depth, version.levelBytes depth < 2 ^ 64) :
    (∃ choice, pickCompaction version options = .ok choice ∧ Choice options version choice ∧
        ∀ other, Choice options version other → other = choice) ↔
      options.l0CompactionTrigger ≤ (version.level 0).length ∨
        options.memtableSizeBytes * options.l0CompactionTrigger < 2 ^ 64 := by
  have words : ∀ depth, version.levelBytes depth ≤ u64Max := fun depth =>
    Nat.le_sub_one_of_lt (sizes depth)
  have ofChoice : ∀ choice, pickCompaction version options = .ok choice →
      Choice options version choice → ∃ choice, pickCompaction version options = .ok choice ∧
        Choice options version choice ∧ ∀ other, Choice options version other → other = choice :=
    fun choice picked isChoice =>
      ⟨choice, picked, isChoice, fun other isOther => isOther.unique isChoice⟩
  by_cases long : options.l0CompactionTrigger ≤ (version.level 0).length
  · refine iff_of_true (ofChoice _ ?_ (.top long)) (.inl long)
    exact pickCompaction_of_long (by omega) long
  · have picker := pickCompaction_of_short (by omega) (Nat.lt_of_not_le long)
    by_cases small : options.memtableSizeBytes * options.l0CompactionTrigger ≤ u64Max
    · refine iff_of_true ?_ (.inr (Nat.lt_of_le_sub_one (by norm_num) small))
      rw [if_neg (Nat.not_lt.mpr small)] at picker
      by_cases within : ∀ depth, ¬ Oversized options version depth
      · refine ofChoice none ?_ (.nothing (by omega) within)
        rw [pickCompaction_none_iff small positive depth, ← not_oversized_iff small]
        exact ⟨by omega, within⟩
      · push Not at within
        have least := Nat.isLeast_find within
        obtain ⟨victim, others, tables, picked⟩ := pickLevel_least small depth words least
        exact ofChoice _ (picker.trans picked) (.deeper (by omega) least tables)
    · rw [if_pos (Nat.lt_of_not_le small)] at picker
      refine iff_of_false ?_ ?_
      · rintro ⟨choice, picked, -⟩
        rw [picker] at picked
        cases picked
      · rintro (isLong | isSmall)
        · exact long isLong
        · exact small (Nat.le_sub_one_of_lt isSmall)

end Exact

/-- Three levels with one table, of 900 bytes, in level 1. -/
def middling : Version smallTables := ⟨[[], [⟨1, [1], [1], ⟨[], 1⟩, 900⟩], []]⟩

theorem levelBytes_middling (depth : Nat) :
    middling.levelBytes depth = if depth = 1 then 900 else 0 := by
  match depth with
  | 0 => rfl
  | 1 => rfl
  | 2 => rfl
  | depth + 3 => rfl

/-- Options with a limit of 800 bytes for level 1. -/
def modestOptions : Options :=
  { Options.forTest with memtableSizeBytes := 400, maxLevels := 3 }

theorem level_choice_exact_middling :
    ∃ choice, pickCompaction middling modestOptions = .ok choice ∧
      Choice modestOptions middling choice := by
  have sizes : ∀ depth, middling.levelBytes depth < 2 ^ 64 := by
    intro depth
    rw [levelBytes_middling]
    split <;> norm_num
  have small : modestOptions.memtableSizeBytes * modestOptions.l0CompactionTrigger < 2 ^ 64 := by
    decide
  have positive : 1 ≤ modestOptions.maxLevels := by decide
  obtain ⟨choice, picked, isChoice, -⟩ := (level_choice_exact positive rfl sizes).mpr (.inr small)
  exact ⟨choice, picked, isChoice⟩

/-- Options whose first limit is `2 ^ 64`. -/
def lavishOptions : Options :=
  { Options.forTest with
    memtableSizeBytes := 2 ^ 32
    l0CompactionTrigger := 2 ^ 32
    maxLevels := 3 }

/-- **The first product overflows**, although by the documented limit nothing is to be
compacted. -/
theorem level_choice_overflows :
    pickCompaction middling lavishOptions = .error .panic ∧
      Choice lavishOptions middling none := by
  refine ⟨rfl, .nothing (by decide) ?_⟩
  rintro depth ⟨positive, inside, large⟩
  have isOne : depth = 1 := by
    change depth < 3 - 1 at inside
    omega
  subst isOne
  revert large
  decide

end LsmStore
