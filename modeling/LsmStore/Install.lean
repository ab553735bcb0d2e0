import LsmStore.Compaction

/-!
# Installing the output of a compaction

The version after an admissible job: it reads as before
(`Admissible.lookup_installed`), its ids stay distinct, its key ranges true, and
its deeper levels disjoint and sorted.  The output need only hold what merging
the inputs gives.
-/

set_option autoImplicit false

namespace LsmStore

open Foundation

variable {fmt : TableFormat}

/-- The tables of a level that a job leaves. -/
def CompactionJob.keeps (job : CompactionJob fmt) (tables : List (SsTable fmt)) :
    List (SsTable fmt) :=
  tables.filter fun table => !job.takes table

/-- A level with the output of a job in its place. -/
def placeOutput (depth : Nat) (output : SsTable fmt) (tables : List (SsTable fmt)) :
    List (SsTable fmt) :=
  if depth > 0 then sortBySmallest (tables ++ [output]) else tables ++ [output]

/-- The version that `applyCompaction` leaves. -/
def installed (version : Version fmt) (job : CompactionJob fmt) (output : SsTable fmt) :
    Version fmt :=
  ⟨(version.levels.map job.keeps).modify job.outputLevel (placeOutput job.outputLevel output)⟩

theorem applyCompaction_eq {version : Version fmt} {job : CompactionJob fmt}
    (inside : job.outputLevel < version.levels.length) (output : SsTable fmt) :
    applyCompaction version job output = .ok (installed version job output) := by
  have nonempty : version.levels ≠ [] := by
    intro empty
    rw [empty] at inside
    cases inside
  have dest : min job.outputLevel (version.levels.length - 1) = job.outputLevel := by omega
  unfold applyCompaction
  rw [dest, if_neg nonempty]
  rfl

/-! ## Tables of the installed version -/

section Shape

variable (version : Version fmt) (job : CompactionJob fmt) (output : SsTable fmt)

@[simp] theorem length_levels_installed :
    (installed version job output).levels.length = version.levels.length := by
  simp [installed]

theorem level_installed {depth : Nat} (inside : job.outputLevel < version.levels.length) :
    (installed version job output).level depth =
      if depth = job.outputLevel then placeOutput depth output (job.keeps (version.level depth))
      else job.keeps (version.level depth) := by
  unfold Version.level installed
  rw [List.getElem?_modify, List.getElem?_map]
  by_cases here : depth = job.outputLevel
  · subst here
    rw [if_pos rfl, List.getElem?_eq_getElem inside]
    simp
  · rw [if_neg here]
    cases found : version.levels[depth]? with
    | none => simp [CompactionJob.keeps]
    | some tables => simp [Ne.symm here]

theorem placeOutput_perm (depth : Nat) (tables : List (SsTable fmt)) :
    (placeOutput depth output tables).Perm (output :: tables) := by
  unfold placeOutput
  split
  · exact (sortBySmallest_perm _).trans (List.perm_append_singleton _ _)
  · exact List.perm_append_singleton _ _

/-- The tables of the installed version, around the place of the output. -/
theorem tables_installed (inside : job.outputLevel < version.levels.length) :
    ∃ place, place.Perm (output :: job.keeps (version.seat job.outputLevel)) ∧
      (installed version job output).tablesNewestFirst =
        job.keeps (version.front job.outputLevel) ++ place ++
          job.keeps (version.back job.outputLevel) := by
  have keepsFlatten : ∀ levels : List (List (SsTable fmt)),
      (levels.map job.keeps).flatten = job.keeps levels.flatten := by
    intro levels
    exact List.filter_flatten.symm
  have inside' : job.outputLevel < (version.levels.map job.keeps).length := by
    rw [List.length_map]
    exact inside
  have here : (version.levels.map job.keeps)[job.outputLevel] =
      job.keeps (version.level job.outputLevel) := by
    rw [List.getElem_map, Version.level, List.getElem?_eq_getElem inside, Option.getD_some]
  have flat : (installed version job output).tablesNewestFirst =
      job.keeps (version.levels.take job.outputLevel).flatten ++
        placeOutput job.outputLevel output (job.keeps (version.level job.outputLevel)) ++
        job.keeps (version.back job.outputLevel) := by
    rw [Version.tablesNewestFirst_eq, installed,
      List.modify_eq_take_cons_drop inside', List.flatten_append,
      List.flatten_cons, ← List.map_take, ← List.map_drop, keepsFlatten, keepsFlatten, here,
      List.append_assoc]
    rfl
  cases isLevel : job.outputLevel with
  | zero =>
      refine ⟨[output], by simp [Version.seat, CompactionJob.keeps], ?_⟩
      rw [flat, isLevel]
      simp [placeOutput, Version.front, CompactionJob.keeps]
  | succ depth =>
      refine ⟨_, placeOutput_perm output (depth + 1) _, ?_⟩
      rw [flat, isLevel]
      rfl

/-- The installed version holds the output and the tables the job leaves. -/
theorem tables_installed_perm (inside : job.outputLevel < version.levels.length) :
    (installed version job output).tablesNewestFirst.Perm
      (output :: job.keeps version.tablesNewestFirst) := by
  obtain ⟨place, perm, tables⟩ := tables_installed version job output inside
  rw [tables, Version.tables_split inside]
  simp only [CompactionJob.keeps, List.filter_append]
  refine ((perm.append_left _).append_right _).trans ?_
  simp only [CompactionJob.keeps, List.append_assoc, List.cons_append]
  exact List.perm_middle

theorem mem_tables_installed (inside : job.outputLevel < version.levels.length)
    {table : SsTable fmt} :
    table ∈ (installed version job output).tablesNewestFirst ↔
      table = output ∨ table ∈ version.tablesNewestFirst ∧ job.takes table = false := by
  rw [(tables_installed_perm version job output inside).mem_iff, List.mem_cons]
  simp [CompactionJob.keeps]

end Shape

/-! ## Meaning -/

/-- The output holds what merging the inputs of the job gives. -/
def Merges (content : SsTable fmt → List (Key × Entry)) (job : CompactionJob fmt) (drops : Bool)
    (output : SsTable fmt) : Prop :=
  ∀ key, entryIn content key output = keepEntry drops (lookupIn content job.inputs key)

/-- The tables hold no common key. -/
def Unshared (content : SsTable fmt → List (Key × Entry)) (first second : SsTable fmt) : Prop :=
  ∀ key, entryIn content key first = none ∨ entryIn content key second = none

theorem keepEntry_eq (drops : Bool) (entry : Option Entry) :
    keepEntry drops entry = entry ∨
      drops = true ∧ entry = some .tombstone ∧ keepEntry drops entry = none := by
  cases entry with
  | none => exact .inl rfl
  | some found =>
      cases found with
      | value bytes => cases drops <;> exact .inl rfl
      | tombstone =>
          cases drops with
          | false => exact .inl rfl
          | true => exact .inr ⟨rfl, rfl, rfl⟩

namespace Admissible

variable {content : SsTable fmt → List (Key × Entry)} {version : Version fmt}
  {job : CompactionJob fmt} {drops : Bool} {output : SsTable fmt}

theorem inputs_mem (admissible : Admissible content version job drops) {input : SsTable fmt}
    (isInput : input ∈ job.inputs) : input ∈ version.tablesNewestFirst := by
  rw [Version.tables_split admissible.inside]
  exact List.mem_append_left _ (admissible.sub.subset isInput)

/-- The tables before and at the output's place that are taken are the inputs,
in the order of the job. -/
theorem filter_takes (admissible : Admissible content version job drops)
    (levelled : WellLevelled content version) :
    (version.front job.outputLevel ++ version.seat job.outputLevel).filter job.takes =
      job.inputs := by
  have nodup := levelled.distinct
  rw [Version.tables_split admissible.inside, List.map_append] at nodup
  refine Eq.trans ?_ (filter_label_mem_eq admissible.sub (List.Nodup.of_append_left nodup))
  refine List.filter_congr fun table _ => ?_
  simp [CompactionJob.takes]

/-- No input lies behind the place of the output. -/
theorem keeps_back (admissible : Admissible content version job drops)
    (levelled : WellLevelled content version) :
    job.keeps (version.back job.outputLevel) = version.back job.outputLevel := by
  refine List.filter_eq_self.mpr fun table member => ?_
  have nodup := levelled.distinct
  rw [Version.tables_split admissible.inside, List.map_append] at nodup
  have apart := List.disjoint_of_nodup_append nodup
  by_contra taken
  obtain ⟨input, isInput, sameId⟩ := CompactionJob.takes_iff.mp (by simpa using taken)
  exact apart (List.mem_map_of_mem (admissible.sub.subset isInput))
    (sameId ▸ List.mem_map_of_mem member)

/-- A table that stays in the output's level shares no key with the inputs. -/
theorem seat_clear (admissible : Admissible content version job drops)
    (levelled : WellLevelled content version) {table input : SsTable fmt}
    (member : table ∈ version.seat job.outputLevel) (stays : job.takes table = false)
    (isInput : input ∈ job.inputs) {key : Key} (found : entryIn content key input ≠ none) :
    entryIn content key table = none := by
  have inTables : table ∈ version.tablesNewestFirst := by
    rw [Version.tables_split admissible.inside]
    exact List.mem_append_left _ (List.mem_append_right _ member)
  refine (levelled.ranged input (admissible.inputs_mem isInput)).entryIn_eq_none_of_apart
    (levelled.ranged table inTables) ?_ found
  rcases admissible.hull table member stays with empty | apart
  · exact .inr (.inl empty)
  · exact .inr (.inr (apart input isInput input isInput).symm)

/-- The tables among which an output takes its place share no key. -/
theorem seat_unshared (levelled : WellLevelled content version) (depth : Nat) :
    (version.seat depth).Pairwise (Unshared content) := by
  cases depth with
  | zero => exact List.Pairwise.nil
  | succ depth =>
      refine (levelled.disjoint (depth + 1) (by omega)).imp_of_mem ?_
      intro first second member member' apart key
      by_cases found : entryIn content key first = none
      · exact .inl found
      · exact .inr ((levelled.ranged_of_level member).entryIn_eq_none_of_apart
          (levelled.ranged_of_level member') apart found)

theorem seat_single (levelled : WellLevelled content version) (depth : Nat) (key : Key) :
    AtMostOneHit (entryIn content key) (version.seat depth) :=
  (seat_unshared levelled depth).imp fun unshared => unshared key

/-- The output answers as the inputs do, or their answer is a tombstone that hides
nothing further down. -/
theorem output_answers (admissible : Admissible content version job drops)
    (merges : Merges content job drops output) (key : Key) :
    entryIn content key output = lookupIn content job.inputs key ∨
      entryIn content key output = none ∧
        lookupIn content (version.back job.outputLevel) key = none ∧
        ∀ value, lookupIn content job.inputs key = some value →
          visible (some value) = visible none := by
  have merged := merges key
  rcases keepEntry_eq drops (lookupIn content job.inputs key) with same | ⟨drop, gone, nothing⟩
  · exact .inl (merged.trans same)
  · refine .inr ⟨merged.trans nothing, ?_, ?_⟩
    · obtain ⟨input, isInput, found⟩ := exists_of_findSome? gone
      refine findSome?_eq_none fun table member => ?_
      exact admissible.dropped drop input isInput table member key (by rw [found]; simp)
    · intro value found
      have same : some Entry.tombstone = some value := gone.symm.trans found
      cases same
      rfl

/-- **Installing an admissible job changes no lookup.** -/
theorem lookup_installed (admissible : Admissible content version job drops)
    (levelled : WellLevelled content version) (merges : Merges content job drops output)
    (key : Key) :
    visible (lookupIn content (installed version job output).tablesNewestFirst key) =
      visible (lookupIn content version.tablesNewestFirst key) := by
  obtain ⟨place, perm, tables⟩ := tables_installed version job output admissible.inside
  have taken := admissible.filter_takes levelled
  rw [tables, admissible.keeps_back levelled, Version.tables_split admissible.inside]
  refine findSome?_replace ?_ ?_ perm ?_ ?_
  · exact admissible.order.imp fun stays first second => stays first second key
  · exact (seat_single levelled job.outputLevel key).sublist List.filter_sublist
  · rw [taken]
    exact admissible.output_answers merges key
  · rw [taken]
    intro found table member
    obtain ⟨value, isValue⟩ := Option.ne_none_iff_exists'.mp found
    obtain ⟨input, isInput, inInput⟩ := exists_of_findSome? isValue
    obtain ⟨inSeat, stays⟩ := List.mem_filter.mp member
    exact admissible.seat_clear levelled inSeat (by simpa using stays) isInput
      (by rw [inInput]; simp)

/-- What an output holds, one of its inputs holds. -/
theorem exists_input (merges : Merges content job drops output) {key : Key}
    (found : entryIn content key output ≠ none) :
    ∃ input ∈ job.inputs, entryIn content key input ≠ none := by
  obtain ⟨entry, isEntry⟩ := Option.ne_none_iff_exists'.mp found
  rw [merges key] at isEntry
  obtain ⟨merged, _⟩ := Option.filter_eq_some_iff.mp isEntry
  obtain ⟨input, isInput, inInput⟩ := exists_of_findSome? merged
  exact ⟨input, isInput, Option.ne_none_iff_exists'.mpr ⟨entry, inInput⟩⟩

/-- Both ends of an output's range lie in ranges of inputs. -/
theorem output_within (admissible : Admissible content version job drops)
    (levelled : WellLevelled content version) (merges : Merges content job drops output)
    (ranged : Ranged content output) (held : output.vacant = false) :
    ∃ first ∈ job.inputs, ∃ last ∈ job.inputs,
      first.smallestKey ≤ output.smallestKey ∧ output.largestKey ≤ last.largestKey := by
  have nonempty : content output ≠ [] := by
    intro empty
    rw [ranged.vacant_iff.mpr empty] at held
    cases held
  have fromInput : ∀ pair ∈ content output, ∃ input ∈ job.inputs,
      input.smallestKey ≤ pair.1 ∧ pair.1 ≤ input.largestKey := by
    intro pair isPair
    have found : entryIn content pair.1 output = some pair.2 :=
      ranged.valid.sorted.valueAt_of_mem isPair
    obtain ⟨input, isInput, inInput⟩ := exists_input merges (by rw [found]; simp)
    exact ⟨input, isInput,
      (levelled.ranged input (admissible.inputs_mem isInput)).range_of_entryIn inInput⟩
  obtain ⟨first, isInput, low, _⟩ := fromInput _ (List.head_mem nonempty)
  obtain ⟨last, isInput', _, high⟩ := fromInput _ (List.getLast_mem nonempty)
  refine ⟨first, isInput, last, isInput', ?_, ?_⟩
  · rw [ranged.smallest, firstKey, List.head?_eq_some_head nonempty]
    exact low
  · rw [ranged.largest, lastKey, List.getLast?_eq_some_getLast nonempty]
    exact high

/-- The output stays apart from the tables that stay in its level. -/
theorem output_apart (admissible : Admissible content version job drops)
    (levelled : WellLevelled content version) (merges : Merges content job drops output)
    (ranged : Ranged content output) {table : SsTable fmt}
    (member : table ∈ version.seat job.outputLevel) (stays : job.takes table = false) :
    RangesApart table output := by
  rcases admissible.hull table member stays with empty | apart
  · exact .inl empty
  by_cases vacant : output.vacant = true
  · exact .inr (.inl vacant)
  obtain ⟨first, isInput, last, isInput', low, high⟩ :=
    admissible.output_within levelled merges ranged (by simpa using vacant)
  exact .inr (.inr ((apart first isInput last isInput').mono (le_refl _) (le_refl _) low high))

/-- **The installed version is well levelled.** -/
theorem wellLevelled_installed (admissible : Admissible content version job drops)
    (levelled : WellLevelled content version) (merges : Merges content job drops output)
    (ranged : Ranged content output)
    (fresh : ∀ table ∈ version.tablesNewestFirst, table.id ≠ output.id) :
    WellLevelled content (installed version job output) := by
  refine ⟨?_, ?_, ?_⟩
  · intro table member
    rcases (mem_tables_installed version job output admissible.inside).mp member with
      rfl | ⟨old, _⟩
    · exact ranged
    · exact levelled.ranged table old
  · have perm := (tables_installed_perm version job output admissible.inside).map SsTable.id
    refine perm.nodup_iff.mpr (List.nodup_cons.mpr ⟨?_, ?_⟩)
    · intro member
      obtain ⟨table, isKept, sameId⟩ := List.mem_map.mp member
      exact fresh table (List.mem_of_mem_filter isKept) sameId
    · exact levelled.distinct.sublist (List.filter_sublist.map _)
  · intro depth positive
    have kept : LevelDisjoint (job.keeps (version.level depth)) :=
      (levelled.disjoint depth positive).sublist List.filter_sublist
    rw [level_installed version job output admissible.inside]
    split
    · rename_i here
      refine (placeOutput_perm output depth _).symm.pairwise ?_ fun apart => apart.symm
      refine List.pairwise_cons.mpr ⟨fun table member => ?_, kept⟩
      obtain ⟨inLevel, stays⟩ := List.mem_filter.mp member
      have inSeat : table ∈ version.seat job.outputLevel := by
        rw [← here]
        cases depth with
        | zero => cases positive
        | succ depth => exact inLevel
      exact (admissible.output_apart levelled merges ranged inSeat (by simpa using stays)).symm
    · exact kept

/-- The deeper levels of the installed version are sorted. -/
theorem levelsSorted_installed (admissible : Admissible content version job drops)
    (sorted : LevelsSorted version) : LevelsSorted (installed version job output) := by
  intro depth positive
  rw [level_installed version job output admissible.inside]
  split
  · unfold placeOutput
    rw [if_pos (by omega)]
    exact sortBySmallest_sorted _
  · exact (sorted depth positive).sublist List.filter_sublist

end Admissible

/-! ## A flushed table -/

section PushFront

variable {content : SsTable fmt → List (Key × Entry)} {version version' : Version fmt}
  {table : SsTable fmt}

theorem pushFront_eq_ok (pushed : version.pushFront table = .ok version') :
    version'.tablesNewestFirst = table :: version.tablesNewestFirst ∧
      version'.levels.length = version.levels.length ∧
      version'.level 0 = table :: version.level 0 ∧
      ∀ depth, 1 ≤ depth → version'.level depth = version.level depth := by
  obtain ⟨levels⟩ := version
  cases levels with
  | nil => cases pushed
  | cons l0 deeper =>
      cases pushed
      refine ⟨rfl, rfl, rfl, fun depth positive => ?_⟩
      obtain ⟨depth, rfl⟩ : ∃ less, depth = less + 1 := ⟨depth - 1, by omega⟩
      rfl

theorem pushFront_ok (nonempty : version.levels ≠ []) (table : SsTable fmt) :
    ∃ version', version.pushFront table = .ok version' := by
  obtain ⟨levels⟩ := version
  cases levels with
  | nil => exact absurd rfl nonempty
  | cons l0 deeper => exact ⟨_, rfl⟩

theorem WellLevelled.pushFront (levelled : WellLevelled content version)
    (ranged : Ranged content table)
    (fresh : ∀ other ∈ version.tablesNewestFirst, other.id ≠ table.id)
    (pushed : version.pushFront table = .ok version') : WellLevelled content version' := by
  obtain ⟨tables, _, _, deeper⟩ := pushFront_eq_ok pushed
  refine ⟨?_, ?_, ?_⟩
  · intro other member
    rw [tables] at member
    rcases List.mem_cons.mp member with rfl | old
    · exact ranged
    · exact levelled.ranged other old
  · rw [tables, List.map_cons]
    refine List.nodup_cons.mpr ⟨fun member => ?_, levelled.distinct⟩
    obtain ⟨other, isOld, sameId⟩ := List.mem_map.mp member
    exact fresh other isOld sameId
  · intro depth positive
    rw [deeper depth positive]
    exact levelled.disjoint depth positive

theorem LevelsSorted.pushFront (sorted : LevelsSorted version)
    (pushed : version.pushFront table = .ok version') : LevelsSorted version' := by
  intro depth positive
  rw [(pushFront_eq_ok pushed).2.2.2 depth positive]
  exact sorted depth positive

end PushFront

/-- Installing an output enters no other table. -/
theorem mem_of_applyCompaction {version version' : Version fmt}
    {job : CompactionJob fmt} {output table : SsTable fmt}
    (install : applyCompaction version job output = .ok version')
    (member : table ∈ version'.tablesNewestFirst) :
    table = output ∨ table ∈ version.tablesNewestFirst := by
  unfold applyCompaction at install
  dsimp only at install
  split at install
  · cases install
  · cases install
    rw [Version.tablesNewestFirst_eq] at member ⊢
    obtain ⟨level, isLevel, inLevel⟩ := List.mem_flatten.mp member
    obtain ⟨depth, atDepth⟩ := List.mem_iff_getElem?.mp isLevel
    rw [List.getElem?_modify, List.getElem?_map] at atDepth
    cases old : version.levels[depth]? with
    | none => simp [old] at atDepth
    | some tables =>
        have stays : ∀ other, other ∈ tables → other ∈ version.levels.flatten := fun other inside =>
          List.mem_flatten.mpr ⟨tables, List.mem_of_getElem? old, inside⟩
        have placed : table ∈ tables.filter (fun other =>
            !(job.inputs.map SsTable.id).contains other.id) ++ [output] →
              table = output ∨ table ∈ version.levels.flatten := by
          intro inside
          rcases List.mem_append.mp inside with kept | isOutput
          · exact .inr (stays _ (List.mem_filter.mp kept).1)
          · exact .inl (List.mem_singleton.mp isOutput)
        simp only [old, Option.map_some] at atDepth
        cases atDepth
        split_ifs at inLevel
        · exact placed ((sortBySmallest_perm _).mem_iff.mp inLevel)
        · exact placed inLevel
        · exact .inr (stays _ (List.mem_filter.mp inLevel).1)

end LsmStore
