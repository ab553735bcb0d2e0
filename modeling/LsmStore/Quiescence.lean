import LsmStore.Pass

/-!
# Compaction comes to rest

Every job takes at least one table out of a level and puts a single table into the
next deeper one, whatever the sizes of the tables.  A table counts the more the
higher it lies; the sum over all tables is the burden of a version, and every pass
that runs a job lowers it (`burden_installed_lt`).  Passes with no writes in
between therefore reach a version in which nothing is picked
(`compaction_quiesces`).
-/

set_option autoImplicit false

namespace LsmStore

variable {fmt : TableFormat}

/-! ## The burden of a version -/

/-- Each table counts as many levels as there are from its own down to the last. -/
def burden {α : Type} : List (List α) → Nat
  | [] => 0
  | level :: deeper => level.length * (deeper.length + 1) + burden deeper

theorem burden_filter_le {α : Type} (keep : α → Bool) (levels : List (List α)) :
    burden (levels.map (List.filter keep)) ≤ burden levels := by
  induction levels with
  | nil => exact Nat.le_refl _
  | cons level deeper ih =>
      simp only [List.map_cons, burden, List.length_map]
      exact Nat.add_le_add (Nat.mul_le_mul_right _ (List.length_filter_le _ _)) ih

/-- Taking a table out of a level takes at least that level's weight. -/
theorem burden_filter_add_le {α : Type} {keep : α → Bool} {levels : List (List α)} {depth : Nat}
    {level : List α} (isLevel : levels[depth]? = some level) {table : α} (member : table ∈ level)
    (taken : keep table = false) :
    burden (levels.map (List.filter keep)) + (levels.length - depth) ≤ burden levels := by
  induction levels generalizing depth with
  | nil => cases isLevel
  | cons first deeper ih =>
      simp only [List.map_cons, burden, List.length_map, List.length_cons]
      cases depth with
      | zero =>
          obtain rfl : first = level := Option.some.inj isLevel
          have fewer : (first.filter keep).length + 1 ≤ first.length :=
            List.length_filter_lt_length_iff_exists.mpr ⟨table, member, by simp [taken]⟩
          have weight := Nat.mul_le_mul_right (deeper.length + 1) fewer
          have rest := burden_filter_le keep deeper
          rw [Nat.succ_mul] at weight
          omega
      | succ depth =>
          have rest := ih isLevel
          have here := Nat.mul_le_mul_right (deeper.length + 1) (List.length_filter_le keep first)
          omega

/-- One more table in a level adds that level's weight. -/
theorem burden_modify {α : Type} {levels : List (List α)} {depth : Nat} {change : List α → List α}
    (inside : depth < levels.length) (one : ∀ level, (change level).length = level.length + 1) :
    burden (levels.modify depth change) = burden levels + (levels.length - depth) := by
  induction levels generalizing depth with
  | nil => cases inside
  | cons first deeper ih =>
      cases depth with
      | zero =>
          simp only [List.modify_zero_cons, burden, one, List.length_cons, Nat.succ_mul]
          omega
      | succ depth =>
          have rest := ih (Nat.lt_of_succ_lt_succ inside)
          simp only [List.modify_succ_cons, burden, List.length_modify, List.length_cons, rest]
          omega

/-- A picked job takes a table out of the level above its output. -/
theorem exists_taken_of_pick {version : Version fmt} {options : Options} {job : CompactionJob fmt}
    (levels : 2 ≤ options.maxLevels) (trigger : 1 ≤ options.l0CompactionTrigger)
    (picked : pickCompaction version options = .ok (some job)) :
    ∃ depth level table, job.outputLevel = depth + 1 ∧ version.levels[depth]? = some level ∧
      table ∈ level ∧ job.takes table = true := by
  rcases pickCompaction_eq_some picked with ⟨l0, deeper, isLevels, long, rfl⟩ |
    ⟨depth, victim, others, _, _, isLevel, rfl⟩
  · obtain ⟨first, member⟩ := List.exists_mem_of_length_pos (by omega : 0 < l0.length)
    exact ⟨0, l0, first, by dsimp only; omega, by rw [isLevels]; rfl, member,
      CompactionJob.takes_of_mem (List.mem_append_left _ member)⟩
  · exact ⟨depth, victim :: others, victim, rfl, isLevel, List.mem_cons_self,
      CompactionJob.takes_of_mem List.mem_cons_self⟩

/-- **A job lowers the burden**, whatever its output is. -/
theorem burden_installed_lt {version : Version fmt} {options : Options} {job : CompactionJob fmt}
    (levels : 2 ≤ options.maxLevels) (trigger : 1 ≤ options.l0CompactionTrigger)
    (depth : version.levels.length = options.maxLevels)
    (picked : pickCompaction version options = .ok (some job)) (output : SsTable fmt) :
    burden (installed version job output).levels < burden version.levels := by
  obtain ⟨above, level, table, isOutput, isLevel, member, taken⟩ :=
    exists_taken_of_pick levels trigger picked
  have inside := outputLevel_lt_of_pick depth picked
  have removed : burden (version.levels.map job.keeps) + (version.levels.length - above) ≤
      burden version.levels :=
    burden_filter_add_le isLevel member (by rw [taken]; rfl)
  have added : burden ((version.levels.map job.keeps).modify job.outputLevel
      (placeOutput job.outputLevel output)) =
        burden (version.levels.map job.keeps) + (version.levels.length - job.outputLevel) := by
    rw [burden_modify (by rw [List.length_map]; exact inside)
      fun level => by rw [(placeOutput_perm output _ level).length_eq, List.length_cons],
      List.length_map]
  rw [installed, added]
  omega

/-- A pass that succeeds runs no job, or lowers the burden. -/
theorem burden_compactOnce {db db' : Db fmt} {value : Unit}
    (levels : 2 ≤ db.engine.options.maxLevels) (trigger : 1 ≤ db.engine.options.l0CompactionTrigger)
    (depth : db.engine.version.levels.length = db.engine.options.maxLevels)
    (done : compactOnce db = .ok value db') :
    pickCompaction db.engine.version db.engine.options = .ok none ∨
      burden db'.engine.version.levels < burden db.engine.version.levels ∧
        db'.engine.options = db.engine.options ∧
        db'.engine.version.levels.length = db.engine.version.levels.length := by
  rcases compactOnce_of_ok depth done with ⟨idle, _⟩ | ⟨job, file, handle, _, picked, _, _, _, rfl⟩
  · exact .inl idle
  · exact .inr ⟨burden_installed_lt levels trigger depth picked _, rfl,
      length_levels_installed _ _ _⟩

/-- **Compaction reaches quiescence.**  There is a bound, known from the version
alone, within which successful passes with no writes in between come to a version
in which nothing is picked, whatever tables the passes write. -/
theorem compaction_quiesces (options : Options) (version : Version fmt)
    (levels : 2 ≤ options.maxLevels) (trigger : 1 ≤ options.l0CompactionTrigger)
    (depth : version.levels.length = options.maxLevels) :
    ∃ bound, ∀ run : Nat → Db fmt, (run 0).engine.options = options →
      (run 0).engine.version = version →
      (∀ pass ≤ bound, compactOnce (run pass) = .ok () (run (pass + 1))) →
        ∃ pass ≤ bound,
          pickCompaction (run pass).engine.version (run pass).engine.options = .ok none := by
  refine ⟨burden version.levels, fun run isOptions isVersion passes => ?_⟩
  by_contra busy
  push Not at busy
  -- Every pass runs a job, so the burden falls once more often than it can.
  have falls : ∀ pass ≤ burden version.levels + 1,
      burden (run pass).engine.version.levels + pass ≤ burden version.levels ∧
        (run pass).engine.options = options ∧
        (run pass).engine.version.levels.length = options.maxLevels := by
    intro pass
    induction pass with
    | zero => exact fun _ => ⟨by rw [isVersion, Nat.add_zero], isOptions, by rw [isVersion, depth]⟩
    | succ pass ih =>
        intro within
        obtain ⟨lower, sameOptions, sameDepth⟩ := ih (by omega)
        rcases burden_compactOnce (by rw [sameOptions]; exact levels)
          (by rw [sameOptions]; exact trigger) (by rw [sameDepth, sameOptions])
          (passes pass (by omega)) with idle | ⟨fell, options', depth'⟩
        · exact absurd idle (busy pass (by omega))
        · exact ⟨by omega, options'.trans sameOptions, depth'.trans sameDepth⟩
  have impossible := (falls (burden version.levels + 1) (Nat.le_refl _)).1
  omega

/-- A tombstone in level 0 over a value in level 1. -/
theorem compaction_quiesces_shadowed :
    ∃ bound, ∀ run : Nat → Db smallTables, (run 0).engine.options = shadowed.engine.options →
      (run 0).engine.version = shadowed.engine.version →
      (∀ pass ≤ bound, compactOnce (run pass) = .ok () (run (pass + 1))) →
        ∃ pass ≤ bound,
          pickCompaction (run pass).engine.version (run pass).engine.options = .ok none :=
  compaction_quiesces shadowed.engine.options shadowed.engine.version (by decide) (by decide) rfl

end LsmStore
