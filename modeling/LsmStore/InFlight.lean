import LsmStore.Recovery

/-!
# Jobs in flight

A compaction works on a snapshot of the version while flushes, and perhaps
another compaction, change the current one.  What it needs at the end is that its
job may still be installed (`Admissible`).  This module proves that a job stays
admissible

* when a flushed table is put in front of level 0 (`Admissible.pushFront`);
* when another job is installed that shares no input with it and, unless one of
  the two is empty, writes into another level (`Admissible.after_installed`).
-/

set_option autoImplicit false

namespace LsmStore

open Foundation

variable {fmt : TableFormat}

/-! ## The tables down to a level -/

namespace Version

variable {version : Version fmt}

theorem upto_eq {depth : Nat} (inside : depth < version.levels.length) :
    version.front depth ++ version.seat depth =
      (List.range (depth + 1)).flatMap version.level := by
  cases depth with
  | zero => simp [front, seat]
  | succ depth =>
      have take : version.levels.take (depth + 1) =
          (List.range (depth + 1)).map version.level := by
        have levels := version.levels_eq
        have cut := congrArg (List.take (depth + 1)) levels
        rw [← List.map_take, List.take_range, Nat.min_eq_left (by omega)] at cut
        exact cut
      rw [List.range_succ, List.flatMap_append, List.flatMap_singleton, front, seat, take,
        List.flatMap_def]

theorem mem_upto_iff {depth : Nat} (inside : depth < version.levels.length)
    {table : SsTable fmt} :
    table ∈ version.front depth ++ version.seat depth ↔
      ∃ place, place ≤ depth ∧ table ∈ version.level place := by
  rw [upto_eq inside, List.mem_flatMap]
  constructor
  · rintro ⟨place, bound, member⟩
    exact ⟨place, Nat.lt_succ_iff.mp (List.mem_range.mp bound), member⟩
  · rintro ⟨place, bound, member⟩
    exact ⟨place, List.mem_range.mpr (Nat.lt_succ_of_le bound), member⟩

theorem mem_back_iff {depth : Nat} {table : SsTable fmt} :
    table ∈ version.back depth ↔ ∃ place, depth < place ∧ table ∈ version.level place := by
  unfold back
  rw [List.mem_flatten]
  constructor
  · rintro ⟨tables, isLevel, member⟩
    obtain ⟨index, found⟩ := List.mem_iff_getElem?.mp isLevel
    rw [List.getElem?_drop] at found
    refine ⟨depth + 1 + index, by omega, ?_⟩
    rw [level, found]
    exact member
  · rintro ⟨place, beyond, member⟩
    unfold level at member
    cases found : version.levels[place]? with
    | none => rw [found] at member; cases member
    | some tables =>
        rw [found] at member
        refine ⟨tables, List.mem_iff_getElem?.mpr ⟨place - (depth + 1), ?_⟩, member⟩
        rw [List.getElem?_drop, Nat.add_sub_cancel' (by omega)]
        exact found

theorem upto_sublist {depth deeper : Nat} (order : depth ≤ deeper)
    (inside : deeper < version.levels.length) :
    (version.front depth ++ version.seat depth).Sublist
      (version.front deeper ++ version.seat deeper) := by
  rw [upto_eq inside, upto_eq (lt_of_le_of_lt order inside)]
  have ranges : (List.range (depth + 1)).Sublist (List.range (deeper + 1)) :=
    List.range_sublist.mpr (by omega)
  exact ranges.flatMap _

end Version

/-! ## A flush -/

namespace Admissible

variable {content : SsTable fmt → List (Key × Entry)} {version : Version fmt}
  {job : CompactionJob fmt} {drops : Bool}

/-- **A flushed table does not disturb a job in flight.** -/
theorem pushFront (admissible : Admissible content version job drops) {table : SsTable fmt}
    {version' : Version fmt} (pushed : version.pushFront table = .ok version')
    (fresh : job.takes table = false) : Admissible content version' job drops := by
  obtain ⟨_, length, top, deeper⟩ := pushFront_eq_ok pushed
  have front : version'.front job.outputLevel = table :: version.front job.outputLevel := by
    cases job.outputLevel with
    | zero => exact top
    | succ depth =>
        obtain ⟨levels⟩ := version
        cases levels with
        | nil => cases pushed
        | cons l0 rest =>
            cases pushed
            rfl
  have seat : version'.seat job.outputLevel = version.seat job.outputLevel := by
    cases job.outputLevel with
    | zero => rfl
    | succ depth => exact deeper (depth + 1) (by omega)
  have back : version'.back job.outputLevel = version.back job.outputLevel := by
    obtain ⟨levels⟩ := version
    cases levels with
    | nil => cases pushed
    | cons l0 rest =>
        cases pushed
        rfl
  refine ⟨by rw [length]; exact admissible.inside, ?_, ?_, ?_, ?_⟩
  · rw [front, seat]
    exact admissible.sub.cons _
  · rw [front, seat, List.cons_append]
    refine List.pairwise_cons.mpr ⟨?_, admissible.order⟩
    intro other _ taken
    rw [fresh] at taken
    cases taken
  · rw [back]
    exact admissible.dropped
  · rw [seat]
    exact admissible.hull

end Admissible

/-! ## Another job -/

/-- The jobs share no input; and they write into different levels, or no interval
spanned by inputs of the one meets an interval spanned by inputs of the other. -/
structure Compatible (first second : CompactionJob fmt) : Prop where
  disjoint : ∀ input ∈ first.inputs, ∀ other ∈ second.inputs, input.id ≠ other.id
  levels : first.outputLevel ≠ second.outputLevel ∨
    ∀ low ∈ first.inputs, ∀ high ∈ first.inputs, ∀ low' ∈ second.inputs, ∀ high' ∈ second.inputs,
      Apart low.smallestKey high.largestKey low'.smallestKey high'.largestKey

instance (first second : CompactionJob fmt) : Decidable (Compatible first second) :=
  decidable_of_iff
    ((∀ input ∈ first.inputs, ∀ other ∈ second.inputs, input.id ≠ other.id) ∧
      (first.outputLevel ≠ second.outputLevel ∨
        ∀ low ∈ first.inputs, ∀ high ∈ first.inputs, ∀ low' ∈ second.inputs,
          ∀ high' ∈ second.inputs,
            high.largestKey < low'.smallestKey ∨ high'.largestKey < low.smallestKey))
    ⟨fun both => ⟨both.1, both.2⟩, fun compatible => ⟨compatible.disjoint, compatible.levels⟩⟩

namespace Compatible

variable {first second : CompactionJob fmt}

theorem symm (compatible : Compatible first second) : Compatible second first := by
  refine ⟨?_, ?_⟩
  · intro input isInput other isOther
    exact (compatible.disjoint other isOther input isInput).symm
  · refine compatible.levels.imp Ne.symm ?_
    intro apart low isLow high isHigh low' isLow' high' isHigh'
    exact (apart low' isLow' high' isHigh' low isLow high isHigh).symm

/-- A table taken by the one job stays with the other. -/
theorem stays (compatible : Compatible first second) {table : SsTable fmt}
    (taken : first.takes table = true) : second.takes table = false := by
  by_contra alsoTaken
  obtain ⟨input, isInput, same⟩ := CompactionJob.takes_iff.mp taken
  obtain ⟨other, isOther, same'⟩ := CompactionJob.takes_iff.mp (by simpa using alsoTaken)
  exact compatible.disjoint input isInput other isOther (same.trans same'.symm)

end Compatible

section Other

variable {content : SsTable fmt → List (Key × Entry)} {version : Version fmt}
  {job other : CompactionJob fmt} {drops otherDrops : Bool}

/-- Inputs of two jobs that both lie down to the higher of the output levels share
no key. -/
theorem unshared_of_compatible (admissible : Admissible content version job drops)
    (otherAdmissible : Admissible content version other otherDrops)
    (compatible : Compatible job other) {first second : SsTable fmt}
    (isInput : first ∈ job.inputs) (isOther : second ∈ other.inputs)
    (inOther : first ∈ version.front other.outputLevel ++ version.seat other.outputLevel)
    (inJob : second ∈ version.front job.outputLevel ++ version.seat job.outputLevel) :
    Unshared content first second := by
  -- Both lie in the part of the version that both jobs order.
  have common : ∃ depth, depth ≤ job.outputLevel ∧ depth ≤ other.outputLevel ∧
      first ∈ version.front depth ++ version.seat depth ∧
      second ∈ version.front depth ++ version.seat depth := by
    rcases Nat.le_total job.outputLevel other.outputLevel with order | order
    · exact ⟨job.outputLevel, le_refl _, order, admissible.sub.subset isInput, inJob⟩
    · exact ⟨other.outputLevel, order, le_refl _, inOther, otherAdmissible.sub.subset isOther⟩
  obtain ⟨depth, aboveJob, aboveOther, firstIn, secondIn⟩ := common
  let Separated (a b : SsTable fmt) : Prop :=
    (job.takes a = true → other.takes b = true → Unshared content a b) ∧
      (other.takes a = true → job.takes b = true → Unshared content a b)
  have symmetric : Std.Symm Separated := by
    refine ⟨?_⟩
    rintro a b ⟨left, right⟩
    exact ⟨fun takesB takesA key => (right takesA takesB key).symm,
      fun takesB takesA key => (left takesA takesB key).symm⟩
  have pairs : (version.front depth ++ version.seat depth).Pairwise Separated := by
    have jobOrder := admissible.order.sublist (Version.upto_sublist aboveJob admissible.inside)
    have otherOrder := otherAdmissible.order.sublist
      (Version.upto_sublist aboveOther otherAdmissible.inside)
    refine (jobOrder.and otherOrder).imp ?_
    rintro a b ⟨clear, otherClear⟩
    refine ⟨?_, ?_⟩
    · intro takesA takesB key
      by_cases found : entryIn content key a = none
      · exact .inl found
      · exact .inr (clear takesA (compatible.symm.stays takesB) key found)
    · intro takesA takesB key
      by_cases found : entryIn content key a = none
      · exact .inl found
      · exact .inr (otherClear takesA (compatible.stays takesB) key found)
  have different : first ≠ second := by
    rintro rfl
    exact compatible.disjoint first isInput first isOther rfl
  exact (pairs.forall firstIn secondIn different).1 (CompactionJob.takes_of_mem isInput)
    (CompactionJob.takes_of_mem isOther)

/-- What the tables of a level of the installed version are. -/
theorem mem_level_installed (inside : other.outputLevel < version.levels.length)
    {output table : SsTable fmt} {depth : Nat}
    (member : table ∈ (installed version other output).level depth) :
    table = output ∧ depth = other.outputLevel ∨
      table ∈ version.level depth ∧ other.takes table = false := by
  have kept : table ∈ other.keeps (version.level depth) →
      table ∈ version.level depth ∧ other.takes table = false := by
    intro isKept
    obtain ⟨inLevel, stays⟩ := List.mem_filter.mp isKept
    exact ⟨inLevel, by simpa using stays⟩
  rw [level_installed version other output inside] at member
  split at member
  · rename_i here
    rcases List.mem_cons.mp ((placeOutput_perm output depth _).mem_iff.mp member) with
      isOutput | isKept
    · exact .inl ⟨isOutput, here⟩
    · exact .inr (kept isKept)
  · exact .inr (kept member)

theorem keeps_sublist_installed (inside : other.outputLevel < version.levels.length)
    (sorted : LevelsSorted version) (output : SsTable fmt) (depth : Nat) :
    (other.keeps (version.level depth)).Sublist
      ((installed version other output).level depth) := by
  rw [level_installed version other output inside]
  split
  · unfold placeOutput
    split
    · refine List.sublist_insertionSort ?_ (List.sublist_append_left _ _)
      exact (sorted depth (by omega)).sublist List.filter_sublist
    · exact List.sublist_append_left _ _
  · exact List.Sublist.refl _

/-- An input of the job shares no key with the output of the other job, if it lies
down to the level of that output. -/
theorem unshared_output (admissible : Admissible content version job drops)
    (otherAdmissible : Admissible content version other otherDrops)
    (compatible : Compatible job other) {output input : SsTable fmt}
    (merges : Merges content other otherDrops output) (isInput : input ∈ job.inputs)
    (inOther : input ∈ version.front other.outputLevel ++ version.seat other.outputLevel)
    (inJob : ∀ source ∈ other.inputs, (∃ key, entryIn content key input ≠ none ∧
      entryIn content key source ≠ none) →
        source ∈ version.front job.outputLevel ++ version.seat job.outputLevel) :
    Unshared content input output := by
  intro key
  by_contra shared
  obtain ⟨held, found⟩ := not_or.mp shared
  obtain ⟨source, isSource, inSource⟩ := Admissible.exists_input merges found
  rcases unshared_of_compatible admissible otherAdmissible compatible isInput isSource inOther
    (inJob source isSource ⟨key, held, inSource⟩) key with nothing | nothing
  · exact held nothing
  · exact inSource nothing

/-- **Another job does not disturb a job in flight**, if the two are compatible. -/
theorem Admissible.after_installed (admissible : Admissible content version job drops)
    (otherAdmissible : Admissible content version other otherDrops)
    (levelled : WellLevelled content version) (sorted : LevelsSorted version)
    (compatible : Compatible job other) {output : SsTable fmt}
    (merges : Merges content other otherDrops output) (ranged : Ranged content output)
    (fresh : ∀ table ∈ version.tablesNewestFirst, table.id ≠ output.id) :
    Admissible content (installed version other output) job drops := by
  have inside : job.outputLevel < (installed version other output).levels.length := by
    rw [length_levels_installed]
    exact admissible.inside
  have levelled' := otherAdmissible.wellLevelled_installed levelled merges ranged fresh
  have untaken : job.takes output = false := by
    by_contra taken
    obtain ⟨input, isInput, same⟩ := CompactionJob.takes_iff.mp (by simpa using taken)
    exact fresh input (admissible.inputs_mem isInput) same
  have isInput : ∀ {depth : Nat} {table : SsTable fmt}, table ∈ version.level depth →
      job.takes table = true → table ∈ job.inputs := by
    intro depth table member taken
    exact levelled.mem_inputs_of_takes (fun input => admissible.inputs_mem)
      (Version.mem_tables_iff.mpr ⟨depth, member⟩) taken
  -- An input above the output's level, when that level is not behind the job's place.
  have clearOfOutput : other.outputLevel ≤ job.outputLevel → ∀ {depth : Nat} {table : SsTable fmt},
      depth ≤ other.outputLevel → table ∈ version.level depth → job.takes table = true →
        Unshared content table output := by
    intro above depth table low member taken
    refine unshared_output admissible otherAdmissible compatible merges (isInput member taken)
      ((Version.mem_upto_iff otherAdmissible.inside).mpr ⟨depth, low, member⟩) ?_
    intro source isSource _
    exact (Version.upto_sublist above admissible.inside).subset
      (otherAdmissible.sub.subset isSource)
  refine ⟨inside, ?_, ?_, ?_, ?_⟩
  · have kept : job.inputs = other.keeps job.inputs := by
      refine (List.filter_eq_self.mpr ?_).symm
      intro input member
      simp [compatible.stays (CompactionJob.takes_of_mem member)]
    have keepsFlat : other.keeps ((List.range (job.outputLevel + 1)).flatMap version.level) =
        (List.range (job.outputLevel + 1)).flatMap fun depth =>
          other.keeps (version.level depth) := List.filter_flatMap
    have inputsKept : (other.keeps job.inputs).Sublist (other.keeps
        (version.front job.outputLevel ++ version.seat job.outputLevel)) :=
      admissible.sub.filter _
    rw [Version.upto_eq admissible.inside, keepsFlat] at inputsKept
    rw [kept, Version.upto_eq inside]
    refine inputsKept.trans (List.Sublist.flatMap_right _ ?_)
    intro depth _
    exact keeps_sublist_installed otherAdmissible.inside sorted output depth
  · have order := admissible.order
    rw [Version.upto_eq admissible.inside, List.pairwise_flatMap] at order
    rw [Version.upto_eq inside, List.pairwise_flatMap]
    refine ⟨?_, ?_⟩
    · intro depth inRange
      cases depth with
      | succ depth =>
          refine (Admissible.seat_unshared levelled' (depth + 1)).imp ?_
          intro first second unshared _ _ key found
          exact (unshared key).resolve_left found
      | zero =>
          have keptOrder := (order.1 0 inRange).sublist
            (List.filter_sublist (p := fun table => !other.takes table))
          rw [level_installed version other output otherAdmissible.inside]
          split
          · rename_i here
            refine List.pairwise_append.mpr ⟨keptOrder, List.pairwise_singleton _ _, ?_⟩
            intro first isKept second isOutput taken _ key found
            rw [List.mem_singleton.mp isOutput]
            refine (clearOfOutput ?_ ?_ (List.mem_of_mem_filter isKept) taken key).resolve_left
              found
            · omega
            · omega
          · exact keptOrder
    · refine (order.2.and List.pairwise_lt_range).imp_of_mem ?_
      intro depth deeper _ inRange ⟨clear, below⟩ first isFirst second isSecond taken stays key
      rcases mem_level_installed otherAdmissible.inside isFirst with ⟨rfl, _⟩ | ⟨inLevel, _⟩
      · rw [untaken] at taken
        cases taken
      rcases mem_level_installed otherAdmissible.inside isSecond with ⟨rfl, here⟩ | ⟨inLevel', _⟩
      · have reach := List.mem_range.mp inRange
        intro found
        exact (clearOfOutput (by omega) (by omega) inLevel taken key).resolve_left found
      · exact clear first inLevel second inLevel' taken stays key
  · intro drop input member table behind key found
    obtain ⟨depth, beyond, inLevel⟩ := Version.mem_back_iff.mp behind
    rcases mem_level_installed otherAdmissible.inside inLevel with ⟨rfl, here⟩ | ⟨inLevel, _⟩
    · have inOther : input ∈ version.front other.outputLevel ++ version.seat other.outputLevel :=
        (Version.upto_sublist (by omega) otherAdmissible.inside).subset
          (admissible.sub.subset member)
      refine (unshared_output admissible otherAdmissible compatible merges member inOther ?_
        key).resolve_left found
      -- A source behind the job's place would share a key with an input.
      rintro source isSource ⟨shared, inInput, inSource⟩
      obtain ⟨place, _, inLevel⟩ := (Version.mem_upto_iff otherAdmissible.inside).mp
        (otherAdmissible.sub.subset isSource)
      by_cases low : place ≤ job.outputLevel
      · exact (Version.mem_upto_iff admissible.inside).mpr ⟨place, low, inLevel⟩
      · have inBack := Version.mem_back_iff.mpr ⟨place, Nat.not_le.mp low, inLevel⟩
        exact absurd (admissible.dropped drop input member source inBack shared inInput) inSource
    · exact admissible.dropped drop input member table
        (Version.mem_back_iff.mpr ⟨depth, beyond, inLevel⟩) key found
  · intro table member stays
    cases isLevel : job.outputLevel with
    | zero =>
        rw [isLevel] at member
        cases member
    | succ depth =>
        rw [isLevel] at member
        rcases mem_level_installed otherAdmissible.inside member with ⟨rfl, here⟩ | ⟨inLevel, _⟩
        · by_cases vacant : table.vacant = true
          · exact .inl vacant
          · refine .inr ?_
            obtain ⟨low, isLow, high, isHigh, lowLe, highLe⟩ :=
              otherAdmissible.output_within levelled merges ranged (by simpa using vacant)
            intro first isFirst second isSecond
            rcases compatible.levels with differ | apart
            · exact absurd (isLevel.trans here) differ
            · exact (apart first isFirst second isSecond low isLow high isHigh).symm.mono lowLe
                highLe (le_refl _) (le_refl _)
        · refine admissible.hull table ?_ stays
          rw [isLevel]
          exact inLevel

end Other

end LsmStore
