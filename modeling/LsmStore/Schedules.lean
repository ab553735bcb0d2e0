import LsmStore.UnderWay

/-!
# What every schedule preserves

Every event keeps a state orderly (`Orderly.step`), provided that a pass which
begins while another one is under way picks a job compatible with the other's
(`Undisturbed`).  Events wait only for each other, or panic when no table id is
left or the picker overflows (`Blocked`).

With a single background worker there is no other pass, so every schedule is
invisible to the engine's user (`background_compaction_invisible`).  A call of
`compact` beside the worker is safe under that condition
(`overlapping_passes_safe`), and not without it (`overlapping_passes_lose_write`).
-/

set_option autoImplicit false

namespace LsmStore

open Foundation

variable {fmt : TableFormat}

/-- The job that a pass beginning now picks. -/
def Db.pick (db : Db fmt) : Option (CompactionJob fmt) :=
  match pickCompaction db.engine.version db.engine.options with
  | .ok choice => choice
  | .error _ => none

/-- A pass that begins while the other thread's pass is under way picks a job
compatible with the other's. -/
def Undisturbed (event : Event) (state : State fmt) : Prop :=
  match event with
  | .pass thread =>
      (state.passes thread).task.isNone = true →
        ∀ other ∈ (state.passes thread.other).task, ∀ job ∈ state.db.pick, Compatible job other.2
  | _ => True

instance (event : Event) (state : State fmt) : Decidable (Undisturbed event state) :=
  match event with
  | .pass thread =>
      inferInstanceAs (Decidable ((state.passes thread).task.isNone = true →
        ∀ other ∈ (state.passes thread.other).task, ∀ job ∈ state.db.pick, Compatible job other.2))
  | .put _ _ | .delete _ | .get _ | .flush => isTrue trivial

/-- The event has to wait for the user's flush, or would panic. -/
def Blocked (event : Event) (state : State fmt) : Prop :=
  match event with
  | .put _ _ | .delete _ => state.flush ≠ .idle
  | .get _ => False
  | .flush => ∃ snapshot, state.flush = .frozen snapshot ∧ ¬ Roomy state.db
  | .pass thread =>
      (∃ snapshot job, state.passes thread = .picked snapshot job ∧ ¬ Roomy state.db) ∨
        state.passes thread = .idle ∧
          pickCompaction state.db.engine.version state.db.engine.options = .error .panic

/-! ## Changes seen by the others -/

section Others

variable {sound : fmt.Sound fun _ _ => True} {db : Db fmt}

theorem sst_created {id other : UInt64} (different : other ≠ id) (file : fmt.File) :
    (db.created id file).disk.sst other = db.disk.sst other :=
  Function.update_of_ne different _ _

theorem tableLookup_created {id : UInt64}
    (outside : ∀ table ∈ db.engine.version.tablesNewestFirst, table.id ≠ id) (file : fmt.File)
    (key : Key) : (db.created id file).tableLookup key = db.tableLookup key :=
  lookupIn_congr (Stocked.entriesOn_update db.disk.sst outside file) key

theorem reading_created {id : UInt64}
    (outside : ∀ table ∈ db.engine.version.tablesNewestFirst, table.id ≠ id) (file : fmt.File)
    (key : Key) : (db.created id file).reading key = db.reading key :=
  Db.reading_congr rfl rfl (congrArg visible (tableLookup_created outside file key))

theorem unlisted_recorded {id other : UInt64} (different : other ≠ id) (level : UInt32)
    (gone : List UInt64) (unlisted : db.engine.manifest.lists other = false) :
    (db.recorded id level gone).engine.manifest.lists other = false := by
  by_contra isListed
  obtain ⟨place, inManifest, same⟩ := List.mem_map.mp
    (Manifest.lists_iff.mp (by simpa using isListed))
  rcases List.mem_append.mp (List.mem_of_mem_filter inManifest) with old | new
  · rw [Manifest.lists_iff.mpr (List.mem_map.mpr ⟨place, old, same⟩)] at unlisted
    cases unlisted
  · rw [List.mem_singleton.mp new] at same
    exact different same.symm

theorem PassOk.created {pass : Pass fmt} (ok : PassOk sound db pass) {id : UInt64}
    (outside : ∀ table ∈ db.engine.version.tablesNewestFirst, table.id ≠ id)
    (different : ∀ other, pass.id = some other → other ≠ id) (file : fmt.File) :
    PassOk sound (db.created id file) pass := by
  refine ok.frame rfl rfl ?_ ?_
  · intro table member
    exact sst_created (outside table member) file
  · intro other isOther
    exact ⟨sst_created (different other isOther) file, fun unlisted => unlisted⟩

theorem PassOk.recorded {pass : Pass fmt} (ok : PassOk sound db pass) {id : UInt64}
    (different : ∀ other, pass.id = some other → other ≠ id) (level : UInt32)
    (gone : List UInt64) : PassOk sound (db.recorded id level gone) pass := by
  refine ok.frame rfl rfl (fun _ _ => rfl) ?_
  intro other isOther
  exact ⟨rfl, unlisted_recorded (different other isOther) level gone⟩

theorem FlushOk.created {flush : Flush fmt} (ok : FlushOk sound db flush) {id : UInt64}
    (outside : ∀ table ∈ db.engine.version.tablesNewestFirst, table.id ≠ id)
    (different : ∀ other, flush.id = some other → other ≠ id) (file : fmt.File) :
    FlushOk sound (db.created id file) flush := by
  refine ok.frame rfl ?_ ?_
  · intro key
    rw [tableLookup_created outside file key]
  · intro other isOther
    exact ⟨sst_created (different other isOther) file, fun unlisted => unlisted⟩

theorem FlushOk.recorded {flush : Flush fmt} (ok : FlushOk sound db flush) {id : UInt64}
    (different : ∀ other, flush.id = some other → other ≠ id) (level : UInt32)
    (gone : List UInt64) : FlushOk sound (db.recorded id level gone) flush := by
  refine ok.frame rfl (fun _ => rfl) ?_
  intro other isOther
  exact ⟨rfl, unlisted_recorded (different other isOther) level gone⟩

end Others

namespace Orderly

variable {sound : fmt.Sound fun _ _ => True} {expected : Key → Option Bytes} {state : State fmt}

/-- Another owner's id differs from this owner's. -/
theorem different (orderly : Orderly sound expected state) {owner : Owner} {id : UInt64}
    (isId : state.idOf owner = some id) (other : Owner) (distinct : other ≠ owner) :
    ∀ otherId, state.idOf other = some otherId → otherId ≠ id := by
  rintro otherId isOther rfl
  exact distinct (orderly.reserved.unique other owner otherId isOther isId)

/-! ## Writes and reads -/

theorem write (orderly : Orderly sound expected state) {operation : Operation}
    (keyed : operation.key ≠ []) :
    Orderly sound (Function.update expected operation.key operation.result)
      { state with db := state.db.written operation } where
  kept := orderly.kept.written keyed
  reserved := orderly.reserved
  passing thread :=
    (orderly.passing thread).frame rfl rfl (fun _ _ => rfl) fun _ _ => ⟨rfl, fun stays => stays⟩
  compatible := orderly.compatible
  flushing := orderly.flushing.frame rfl (fun _ => rfl) fun _ _ => ⟨rfl, fun stays => stays⟩
  reads key := by
    refine (reading_written state.db operation key).trans ?_
    rw [orderly.reads key, Function.update_apply]

theorem read (orderly : Orderly sound expected state) {cache : fmt.Cache}
    (coherent : sound.Coherent state.db.disk.sst cache) (skips reads : Nat) :
    Orderly sound expected
      { state with
        db :=
          { state.db with
            engine :=
              { state.db.engine with
                cache := cache, bloomSkips := skips, sstableReads := reads } } } where
  kept := { orderly.kept with coherent := coherent }
  reserved := orderly.reserved
  passing thread :=
    (orderly.passing thread).frame rfl rfl (fun _ _ => rfl) fun _ _ => ⟨rfl, fun stays => stays⟩
  compatible := orderly.compatible
  flushing := orderly.flushing.frame rfl (fun _ => rfl) fun _ _ => ⟨rfl, fun stays => stays⟩
  reads := orderly.reads

/-! ## The steps of a flush -/

theorem freeze (orderly : Orderly sound expected state) (idle : state.flush = .idle) :
    Orderly sound expected
      { state with db := state.db.frozen, flush := .frozen state.db.engine.memtable.iter } := by
  have ok := orderly.flushing
  rw [idle] at ok
  have thawed : state.db.engine.immutable = none := ok
  refine ⟨?_, ?_, ?_, orderly.compatible, ?_, ?_⟩
  · exact { orderly.kept with keyed := List.forall_mem_nil _ }
  · rw [State.idOf_flush_same _ _ (by rw [idle]; rfl)]
    exact orderly.reserved
  · intro thread
    exact (orderly.passing thread).frame rfl rfl (fun _ _ => rfl) fun _ _ =>
      ⟨rfl, fun stays => stays⟩
  · exact ⟨rfl, validRun_memtable orderly.kept.keyed⟩
  · intro key
    refine Eq.trans ?_ (orderly.reads key)
    unfold Db.reading
    rw [thawed]
    change visible ((none : Option Entry).or (((MemTable.ofRun _).get key).or _)) = _
    rw [MemTable.get_ofRun (MemTable.iter_sorted _), MemTable.valueAt_iter]
    rfl

section Flushing

variable {snapshot : List (Key × Entry)} {table : SsTable fmt}

theorem flush_allocate (orderly : Orderly sound expected state)
    (stage : state.flush = .frozen snapshot) (room : Roomy state.db) :
    Orderly sound expected
      { state with
        db := state.db.allocated
        flush := .allocated snapshot state.db.engine.manifest.nextTableId } := by
  have ok := orderly.flushing
  rw [stage] at ok
  refine ⟨orderly.kept.allocated room, ?_, ?_, orderly.compatible, ?_, orderly.reads⟩
  · rw [State.idOf_flush]
    exact orderly.reserved.reserve room orderly.kept.fresh none
  · intro thread
    exact (orderly.passing thread).frame rfl rfl (fun _ _ => rfl) fun _ _ =>
      ⟨rfl, fun stays => stays⟩
  · exact ⟨⟨ok.immutable, ok.valid⟩, orderly.kept.unused _ (le_refl _),
      orderly.kept.unlisted_next⟩

theorem flush_create (orderly : Orderly sound expected state) {tableId : UInt64}
    (stage : state.flush = .allocated snapshot tableId) {file : fmt.File} {handle : fmt.Handle}
    (made : fmt.create state.db.engine.options snapshot = .ok (file, handle)) :
    Orderly sound expected
      { state with
        db := state.db.created tableId file, flush := .written snapshot ⟨tableId, handle⟩ } := by
  have ok := orderly.flushing
  rw [stage] at ok
  obtain ⟨frozen, blank, unlisted⟩ := ok
  have isId : state.idOf none = some tableId := by
    change state.flush.id = _
    rw [stage]
    rfl
  have outside := orderly.reserved.outside none tableId isId
  obtain ⟨held, entries⟩ :=
    held_of_create sound state.db.disk.sst tableId frozen.valid trivial made
  refine ⟨orderly.kept.created blank (orderly.reserved.below none tableId isId) outside file,
    ?_, ?_, orderly.compatible, ?_, ?_⟩
  · rw [State.idOf_flush_same _ _ (by rw [stage]; rfl)]
    exact orderly.reserved
  · intro thread
    exact (orderly.passing thread).created outside
      (orderly.different isId (some thread) (Option.some_ne_none thread)) file
  · exact ⟨⟨frozen.immutable, frozen.valid⟩, ⟨held, entries⟩, unlisted⟩
  · intro key
    exact (reading_created outside file key).trans (orderly.reads key)

theorem flush_record (orderly : Orderly sound expected state)
    (stage : state.flush = .written snapshot table) :
    Orderly sound expected
      { state with db := state.db.recorded table.id 0 [], flush := .recorded snapshot table } := by
  have ok := orderly.flushing
  rw [stage] at ok
  obtain ⟨frozen, flushed, _⟩ := ok
  have isId : state.idOf none = some table.id := by
    change state.flush.id = _
    rw [stage]
    rfl
  refine ⟨orderly.kept.recorded (orderly.reserved.below none table.id isId) 0 [], ?_, ?_,
    orderly.compatible, ?_, orderly.reads⟩
  · rw [State.idOf_flush_same _ _ (by rw [stage]; rfl)]
    exact orderly.reserved
  · intro thread
    exact (orderly.passing thread).recorded
      (orderly.different isId (some thread) (Option.some_ne_none thread)) 0 []
  · exact ⟨⟨frozen.immutable, frozen.valid⟩, ⟨flushed.held, flushed.entries⟩⟩

theorem flush_install (orderly : Orderly sound expected state)
    (stage : state.flush = .recorded snapshot table) {version : Version fmt}
    (pushed : state.db.engine.version.pushFront table = .ok version) :
    Orderly sound expected
      { state with db := state.db.withVersion version, flush := .installed snapshot } := by
  have ok := orderly.flushing
  rw [stage] at ok
  obtain ⟨frozen, flushed⟩ := ok
  have isId : state.idOf none = some table.id := by
    change state.flush.id = _
    rw [stage]
    rfl
  have outside := orderly.reserved.outside none table.id isId
  have tables := (pushFront_eq_ok pushed).1
  have lookup : ∀ key, (state.db.withVersion version).tableLookup key =
      (valueAt snapshot key).or (state.db.tableLookup key) := by
    intro key
    change lookupIn (entriesOn state.db.disk.sst) version.tablesNewestFirst key = _
    unfold lookupIn
    rw [tables, List.findSome?_cons, entryIn, flushed.entries]
    cases valueAt snapshot key <;> rfl
  refine ⟨orderly.kept.pushed flushed.held outside pushed, ?_, ?_, orderly.compatible, ?_, ?_⟩
  · rw [State.idOf_flush]
    refine orderly.reserved.release isId ?_
    intro other member
    have member : other ∈ version.tablesNewestFirst := member
    rw [tables] at member
    rcases List.mem_cons.mp member with rfl | old
    · exact .inl rfl
    · exact .inr old
  · intro thread
    refine (orderly.passing thread).withVersion ?_
    intro taken job _ ready
    refine ⟨ready.admissible.pushFront pushed ?_, ready.owned⟩
    by_contra takes
    obtain ⟨input, isInput, same⟩ := CompactionJob.takes_iff.mp (by simpa using takes)
    exact outside input (ready.admissible.inputs_mem isInput) same
  · refine ⟨⟨frozen.immutable, frozen.valid⟩, ?_⟩
    intro key entry found
    rw [lookup key, found]
    rfl
  · intro key
    refine Eq.trans ?_ (orderly.reads key)
    unfold Db.reading
    rw [lookup key]
    change visible ((state.db.engine.memtable.get key).or
      ((state.db.engine.immutable.bind (·.get key)).or _)) = _
    rw [frozen.immutable, Option.bind_some, MemTable.get_ofRun frozen.valid.sorted]
    cases valueAt snapshot key <;> rfl

theorem flush_truncate (orderly : Orderly sound expected state)
    (stage : state.flush = .installed snapshot) :
    Orderly sound expected
      { state with
        db := { state.db with disk := { state.db.disk with wal := [] } }
        flush := .truncated snapshot } := by
  have ok := orderly.flushing
  rw [stage] at ok
  refine ⟨{ orderly.kept with }, ?_, ?_, orderly.compatible, ?_, orderly.reads⟩
  · rw [State.idOf_flush_same _ _ (by rw [stage]; rfl)]
    exact orderly.reserved
  · intro thread
    exact (orderly.passing thread).frame rfl rfl (fun _ _ => rfl) fun _ _ =>
      ⟨rfl, fun stays => stays⟩
  · exact ⟨⟨ok.1.immutable, ok.1.valid⟩, ok.2⟩

theorem flush_clear (orderly : Orderly sound expected state)
    (stage : state.flush = .truncated snapshot) :
    Orderly sound expected
      { state with
        db := { state.db with engine := { state.db.engine with immutable := none } }
        flush := .idle } := by
  have ok := orderly.flushing
  rw [stage] at ok
  obtain ⟨frozen, covered⟩ := ok
  refine ⟨{ orderly.kept with }, ?_, ?_, orderly.compatible, rfl, ?_⟩
  · rw [State.idOf_flush_same _ _ (by rw [stage]; rfl)]
    exact orderly.reserved
  · intro thread
    exact (orderly.passing thread).frame rfl rfl (fun _ _ => rfl) fun _ _ =>
      ⟨rfl, fun stays => stays⟩
  · intro key
    refine Eq.trans ?_ (orderly.reads key)
    unfold Db.reading
    rw [frozen.immutable, Option.bind_some, MemTable.get_ofRun frozen.valid.sorted]
    cases state.db.engine.memtable.get key with
    | some entry => rfl
    | none =>
        cases found : valueAt snapshot key with
        | none => rfl
        | some entry => exact covered key entry found

end Flushing

/-! ## The steps of a pass -/

section Passing

variable {thread : Thread} {snapshot : Version fmt} {job : CompactionJob fmt}
  {output : SsTable fmt}

/-- The condition on the two passes after a step of one of them. -/
theorem passing_update {passes : Thread → Pass fmt} {db : Db fmt} {pass : Pass fmt}
    (mover : PassOk sound db pass) (other : PassOk sound db (passes thread.other)) :
    ∀ which, PassOk sound db (Function.update passes thread pass which) := by
  intro which
  rcases thread.eq_or_other which with rfl | rfl
  · rw [Function.update_self]
    exact mover
  · rw [Function.update_of_ne thread.other_ne]
    exact other

/-- A step that keeps the job of a pass keeps the jobs compatible. -/
theorem compatible_update (orderly : Orderly sound expected state) {pass : Pass fmt}
    (task : pass.task = (state.passes thread).task) :
    AllCompatible (Function.update state.passes thread pass) := by
  refine AllCompatible.update ?_
  intro snapshot job snapshot' job' isTask isTask'
  exact orderly.compatible thread snapshot job snapshot' job' (task.symm.trans isTask) isTask'

theorem pass_pick (orderly : Orderly sound expected state)
    (stage : state.passes thread = .idle)
    (picked : pickCompaction state.db.engine.version state.db.engine.options = .ok (some job))
    (compatible : ∀ snapshot other, (state.passes thread.other).task = some (snapshot, other) →
      Compatible job other) :
    Orderly sound expected
      { state with
        passes := Function.update state.passes thread (.picked state.db.engine.version job) } := by
  have admissible := orderly.kept.stocked.levelled.admissible_of_pick orderly.kept.depth picked
  refine ⟨orderly.kept, ?_, ?_, ?_, orderly.flushing, orderly.reads⟩
  · rw [State.idOf_pass_same _ _ (by rw [stage]; rfl)]
    exact orderly.reserved
  · exact passing_update ⟨admissible, fun input => admissible.inputs_mem⟩
      (orderly.passing thread.other)
  · refine AllCompatible.update ?_
    intro snapshot job' snapshot' other isTask isOther
    cases isTask
    exact compatible snapshot' other isOther

theorem pass_allocate (orderly : Orderly sound expected state)
    (stage : state.passes thread = .picked snapshot job) (room : Roomy state.db) :
    Orderly sound expected
      { state with
        db := state.db.allocated
        passes := Function.update state.passes thread
          (.allocated snapshot job state.db.engine.manifest.nextTableId) } := by
  have ok := orderly.passing thread
  rw [stage] at ok
  have ready : Ready state.db snapshot job := ok
  refine ⟨orderly.kept.allocated room, ?_, ?_, orderly.compatible_update (by rw [stage]; rfl), ?_,
    orderly.reads⟩
  · rw [State.idOf_pass]
    exact orderly.reserved.reserve room orderly.kept.fresh (some thread)
  · refine passing_update ⟨ready.frame rfl rfl fun _ _ => rfl,
      orderly.kept.unused _ (le_refl _), orderly.kept.unlisted_next⟩ ?_
    exact (orderly.passing thread.other).frame rfl rfl (fun _ _ => rfl) fun _ _ =>
      ⟨rfl, fun stays => stays⟩
  · exact orderly.flushing.frame rfl (fun _ => rfl) fun _ _ => ⟨rfl, fun stays => stays⟩

theorem pass_create (orderly : Orderly sound expected state) {outputId : UInt64}
    (stage : state.passes thread = .allocated snapshot job outputId) {file : fmt.File}
    {handle : fmt.Handle}
    (made : fmt.create state.db.engine.options (mergedEntries state.db.disk.sst job
      (dropTombstones snapshot state.db.engine.options job)) = .ok (file, handle)) :
    Orderly sound expected
      { state with
        db := state.db.created outputId file
        passes := Function.update state.passes thread
          (.written snapshot job ⟨outputId, handle⟩) } := by
  have ok := orderly.passing thread
  rw [stage] at ok
  obtain ⟨ready, blank, unlisted⟩ := ok
  have isId : state.idOf (some thread) = some outputId := by
    change (state.passes thread).id = _
    rw [stage]
    rfl
  have outside := orderly.reserved.outside _ outputId isId
  have files : ∀ table ∈ state.db.engine.version.tablesNewestFirst,
      (state.db.created outputId file).disk.sst table.id = state.db.disk.sst table.id :=
    fun table member => sst_created (outside table member) file
  have inputsHeld : ∀ input ∈ job.inputs, Held sound state.db.disk.sst input :=
    fun input isInput => orderly.kept.stocked.held input (ready.admissible.inputs_mem isInput)
  obtain ⟨_, valid, merged⟩ := mergedEntries_spec inputsHeld
    (dropTombstones snapshot state.db.engine.options job)
  obtain ⟨held, entries⟩ := held_of_create sound state.db.disk.sst outputId valid trivial made
  refine ⟨orderly.kept.created blank (orderly.reserved.below _ outputId isId) outside file, ?_, ?_,
    orderly.compatible_update (by rw [stage]; rfl), ?_, ?_⟩
  · rw [State.idOf_pass_same _ _ (by rw [stage]; rfl)]
    exact orderly.reserved
  · refine passing_update ⟨ready.frame rfl rfl files, ⟨held, ?_⟩, unlisted⟩
      ((orderly.passing thread.other).created outside
        (orderly.different isId (some thread.other) (by simpa using thread.other_ne)) file)
    intro key
    refine (congrArg (fun run => valueAt run key) entries).trans ((merged key).trans ?_)
    refine congrArg (keepEntry _) (lookupIn_congr ?_ key).symm
    intro input isInput
    exact entriesOn_congr (files input (ready.admissible.inputs_mem isInput))
  · exact orderly.flushing.created outside
      (orderly.different isId none (Option.some_ne_none thread).symm) file
  · intro key
    exact (reading_created outside file key).trans (orderly.reads key)

theorem pass_record (orderly : Orderly sound expected state)
    (stage : state.passes thread = .written snapshot job output) (level : UInt32)
    (gone : List UInt64) :
    Orderly sound expected
      { state with
        db := state.db.recorded output.id level gone
        passes := Function.update state.passes thread (.recorded snapshot job output) } := by
  have ok := orderly.passing thread
  rw [stage] at ok
  obtain ⟨ready, finished, _⟩ := ok
  have isId : state.idOf (some thread) = some output.id := by
    change (state.passes thread).id = _
    rw [stage]
    rfl
  refine ⟨orderly.kept.recorded (orderly.reserved.below _ output.id isId) level gone, ?_, ?_,
    orderly.compatible_update (by rw [stage]; rfl), ?_, orderly.reads⟩
  · rw [State.idOf_pass_same _ _ (by rw [stage]; rfl)]
    exact orderly.reserved
  · refine passing_update ⟨ready.frame rfl rfl fun _ _ => rfl,
      finished.frame ready rfl (fun _ _ => rfl) rfl⟩ ?_
    exact (orderly.passing thread.other).recorded
      (orderly.different isId (some thread.other) (by simpa using thread.other_ne)) level gone
  · exact orderly.flushing.recorded
      (orderly.different isId none (Option.some_ne_none thread).symm) level gone

/-- **The install of one pass disturbs neither the other pass nor the flush nor the
reads.** -/
theorem pass_install (orderly : Orderly sound expected state)
    (stage : state.passes thread = .recorded snapshot job output) :
    Orderly sound expected
      { state with
        db := state.db.withVersion (installed state.db.engine.version job output)
        passes := Function.update state.passes thread .idle } := by
  have ok := orderly.passing thread
  rw [stage] at ok
  obtain ⟨ready, finished⟩ := ok
  have isId : state.idOf (some thread) = some output.id := by
    change (state.passes thread).id = _
    rw [stage]
    rfl
  have outside := orderly.reserved.outside _ output.id isId
  have levelled := orderly.kept.stocked.levelled
  have lookups : ∀ key, visible ((state.db.withVersion
      (installed state.db.engine.version job output)).tableLookup key) =
        visible (state.db.tableLookup key) :=
    fun key => ready.admissible.lookup_installed levelled finished.merges key
  refine ⟨orderly.kept.installed ready.admissible finished.merges finished.held outside, ?_, ?_, ?_,
    ?_, ?_⟩
  · rw [State.idOf_pass]
    refine orderly.reserved.release isId ?_
    intro table member
    rcases (mem_tables_installed _ job output ready.admissible.inside).mp member with
      rfl | ⟨old, _⟩
    · exact .inl rfl
    · exact .inr old
  · refine passing_update trivial ((orderly.passing thread.other).withVersion ?_)
    intro otherSnapshot other isTask otherReady
    have compatible : Compatible job other :=
      orderly.compatible thread snapshot job otherSnapshot other (by rw [stage]; rfl) isTask
    exact ⟨otherReady.admissible.after_installed ready.admissible levelled orderly.kept.sorted
      compatible.symm finished.merges finished.held.ranged outside, otherReady.owned⟩
  · refine AllCompatible.update ?_
    intro _ _ _ _ isTask
    cases isTask
  · exact orderly.flushing.frame rfl lookups fun _ _ => ⟨rfl, fun stays => stays⟩
  · intro key
    have same : (state.db.withVersion (installed state.db.engine.version job output)).reading key =
        state.db.reading key := Db.reading_congr rfl rfl (lookups key)
    exact same.trans (orderly.reads key)

end Passing

end Orderly

/-! ## One event -/

/-- A map after a list of writes. -/
def overwritten (base : Key → Option Bytes) (history : List Operation) : Key → Option Bytes :=
  history.foldl (fun map operation => Function.update map operation.key operation.result) base

/-- The event can be taken and leaves an orderly state. -/
def Continues (sound : fmt.Sound fun _ _ => True) (expected : Key → Option Bytes) (event : Event)
    (state : State fmt) : Prop :=
  ∃ next, event.step state = some next ∧
    Orderly sound (overwritten expected event.operation.toList) next

/-- An event that is not blocked continues. -/
def Proceeds (sound : fmt.Sound fun _ _ => True) (expected : Key → Option Bytes) (event : Event)
    (state : State fmt) : Prop :=
  Blocked event state ∧ event.step state = none ∨ Continues sound expected event state

theorem continues_of_flush {sound : fmt.Sound fun _ _ => True} {expected : Key → Option Bytes}
    {state : State fmt} {flush : Flush fmt} {db : Db fmt}
    (advanced : state.flush.advance state.db = .ok flush db)
    (after : Orderly sound expected { state with db := db, flush := flush }) :
    Continues sound expected .flush state := by
  refine ⟨_, ?_, after⟩
  unfold Event.step
  dsimp only
  rw [advanced]
  rfl

theorem continues_of_pass {sound : fmt.Sound fun _ _ => True} {expected : Key → Option Bytes}
    {state : State fmt} {thread : Thread} {pass : Pass fmt} {db : Db fmt}
    (advanced : (state.passes thread).advance state.db = .ok pass db)
    (after : Orderly sound expected
      { state with db := db, passes := Function.update state.passes thread pass }) :
    Continues sound expected (.pass thread) state := by
  refine ⟨_, ?_, after⟩
  unfold Event.step
  dsimp only
  rw [advanced]
  rfl

namespace Orderly

variable {sound : fmt.Sound fun _ _ => True} {expected : Key → Option Bytes} {state : State fmt}

theorem write_proceeds (orderly : Orderly sound expected state) {event : Event}
    (writes : event.step state = state.write event.operation)
    (waits : Blocked event state ↔ state.flush ≠ .idle) :
    Proceeds sound expected event state := by
  unfold Proceeds Continues
  rw [writes]
  unfold State.write
  cases stage : state.flush with
  | idle =>
      refine .inr ?_
      cases accepted : event.operation with
      | none => exact ⟨state, rfl, orderly⟩
      | some operation =>
          obtain ⟨fits, keyed⟩ := Event.operation_valid accepted
          dsimp only
          rw [logAndApply_eq orderly.kept.noFaults fits]
          have written := orderly.write keyed
          rw [stage] at written
          exact ⟨_, rfl, written⟩
  | _ => exact .inl ⟨waits.mpr (by rw [stage]; exact nofun), rfl⟩

theorem read_continues (orderly : Orderly sound expected state) (key : Key) :
    Continues sound expected (.get key) state := by
  obtain ⟨cache, skips, reads, searched, coherent⟩ := searchTables_spec sound key
    orderly.kept.stocked.held orderly.kept.coherent
  unfold Continues Event.step State.read get
  dsimp only
  cases validateKey key with
  | error cause => exact ⟨state, rfl, orderly⟩
  | ok _ =>
      dsimp only
      cases state.db.engine.memtable.get key with
      | some entry => cases entry <;> exact ⟨state, rfl, orderly⟩
      | none =>
          dsimp only
          cases state.db.engine.immutable.bind (·.get key) with
          | some entry => cases entry <;> exact ⟨state, rfl, orderly⟩
          | none =>
              have table : getFromTables key state.db = _ := searched
              rw [table]
              exact ⟨_, rfl, orderly.read coherent skips reads⟩

theorem flush_proceeds (orderly : Orderly sound expected state) :
    Proceeds sound expected .flush state := by
  have noFaults := orderly.kept.noFaults
  have ok := orderly.flushing
  cases stage : state.flush with
  | idle =>
      refine .inr ?_
      by_cases empty : state.db.engine.memtable.isEmpty = true
      · have synced : walSync state.db = .ok () state.db := by
          unfold walSync fileOp
          rw [noFaults]
        refine continues_of_flush (by rw [stage]; exact Flush.advance_idle_of_empty empty synced) ?_
        rw [← stage]
        exact orderly
      · refine continues_of_flush ?_ (orderly.freeze stage)
        rw [stage]
        exact Flush.advance_idle (by simpa using empty) rfl
  | frozen snapshot =>
      by_cases room : Roomy state.db
      · refine .inr (continues_of_flush ?_ (orderly.flush_allocate stage room))
        rw [stage]
        exact Flush.advance_frozen (nextTableId_eq noFaults room)
      · refine .inl ⟨⟨snapshot, stage, room⟩, ?_⟩
        have failed : (Flush.frozen snapshot : Flush fmt).advance state.db =
            .error .panic state.db := bind_of_error (nextTableId_panic room)
        unfold Event.step
        dsimp only
        rw [stage, failed]
        rfl
  | allocated snapshot tableId =>
      rw [stage] at ok
      obtain ⟨file, handle, made, _⟩ := @TableFormat.Sound.create_ok _ _ sound
        state.db.engine.options _ ok.1.valid trivial
      refine .inr (continues_of_flush ?_ (orderly.flush_create stage made))
      rw [stage]
      exact Flush.advance_allocated (createTable_eq noFaults tableId made)
  | written snapshot table =>
      rw [stage] at ok
      refine .inr (continues_of_flush ?_ (orderly.flush_record stage))
      rw [stage]
      exact Flush.advance_written (addTable_eq noFaults 0 ok.2.2)
  | recorded snapshot table =>
      have levels : state.db.engine.version.levels ≠ [] := by
        intro none_
        have depth := orderly.kept.depth
        have positive := orderly.kept.positive
        rw [none_, List.length_nil] at depth
        omega
      obtain ⟨version, pushed⟩ := pushFront_ok levels table
      refine .inr (continues_of_flush ?_ (orderly.flush_install stage pushed))
      rw [stage]
      exact Flush.advance_recorded (pushFront_eq pushed)
  | installed snapshot =>
      have cut : walTruncate state.db =
          .ok () { state.db with disk := { state.db.disk with wal := [] } } := by
        unfold walTruncate fileOp
        rw [noFaults]
      refine .inr (continues_of_flush ?_ (orderly.flush_truncate stage))
      rw [stage]
      exact Flush.advance_installed cut
  | truncated snapshot =>
      refine .inr (continues_of_flush ?_ (orderly.flush_clear stage))
      rw [stage]
      exact Flush.advance_truncated rfl

/-- The first step of a pass. -/
theorem pass_begins (orderly : Orderly sound expected state) {thread : Thread}
    (stage : state.passes thread = .idle) (undisturbed : Undisturbed (.pass thread) state) :
    Proceeds sound expected (.pass thread) state := by
  cases picked : pickCompaction state.db.engine.version state.db.engine.options with
  | error failure =>
      obtain rfl := pickCompaction_error picked
      refine .inl ⟨.inr ⟨stage, picked⟩, ?_⟩
      unfold Event.step
      dsimp only
      rw [stage, Pass.advance_idle_panic picked]
      rfl
  | ok choice =>
      refine .inr (continues_of_pass (by rw [stage]; exact Pass.advance_idle picked) ?_)
      cases choice with
      | none =>
          have same : Function.update state.passes thread .idle = state.passes := by
            rw [← stage]
            exact Function.update_eq_self ..
          change Orderly sound expected
            ⟨state.db, state.flush, Function.update state.passes thread .idle⟩
          rw [same]
          exact orderly
      | some job =>
          refine orderly.pass_pick stage picked ?_
          intro snapshot other isTask
          have isPick : state.db.pick = some job := by
            unfold Db.pick
            rw [picked]
          exact undisturbed (by rw [stage]; rfl) _ isTask _ isPick

theorem pass_proceeds (orderly : Orderly sound expected state) {thread : Thread}
    (undisturbed : Undisturbed (.pass thread) state) :
    Proceeds sound expected (.pass thread) state := by
  have noFaults := orderly.kept.noFaults
  have ok := orderly.passing thread
  cases stage : state.passes thread with
  | idle => exact orderly.pass_begins stage undisturbed
  | picked snapshot job =>
      by_cases room : Roomy state.db
      · refine .inr (continues_of_pass ?_ (orderly.pass_allocate stage room))
        rw [stage]
        exact Pass.advance_picked (nextTableId_eq noFaults room)
      · refine .inl ⟨.inl ⟨snapshot, job, stage, room⟩, ?_⟩
        have failed : (Pass.picked snapshot job).advance state.db = .error .panic state.db :=
          bind_of_error (nextTableId_panic room)
        unfold Event.step
        dsimp only
        rw [stage, failed]
        rfl
  | allocated snapshot job outputId =>
      rw [stage] at ok
      have inputsHeld : ∀ input ∈ job.inputs, Held sound state.db.disk.sst input :=
        fun input isInput =>
          orderly.kept.stocked.held input (ok.1.admissible.inputs_mem isInput)
      have valid := (mergedEntries_spec inputsHeld
        (dropTombstones snapshot state.db.engine.options job)).2.1
      obtain ⟨file, handle, made, _⟩ := @TableFormat.Sound.create_ok _ _ sound
        state.db.engine.options _ valid trivial
      refine .inr (continues_of_pass ?_ (orderly.pass_create stage made))
      rw [stage]
      exact Pass.advance_allocated ((writeOutput_eq sound snapshot outputId state.db
        inputsHeld).trans (createTable_eq noFaults outputId made))
  | written snapshot job output =>
      rw [stage] at ok
      refine .inr (continues_of_pass ?_ (orderly.pass_record stage
        (UInt32.ofNat job.outputLevel) (job.inputs.map SsTable.id)))
      rw [stage]
      exact Pass.advance_written (recordCompaction_eq noFaults job ok.2.2)
  | recorded snapshot job output =>
      rw [stage] at ok
      refine .inr (continues_of_pass ?_ (orderly.pass_install stage))
      rw [stage]
      exact Pass.advance_recorded (installCompaction_eq ok.1.admissible.inside output)
        (removeInputs_eq ok.1.owned _)

/-- **Every event keeps a state orderly**, unless it has to wait or panics. -/
theorem step (orderly : Orderly sound expected state) {event : Event}
    (undisturbed : Undisturbed event state) : Proceeds sound expected event state := by
  cases event with
  | put key value => exact orderly.write_proceeds rfl Iff.rfl
  | delete key => exact orderly.write_proceeds rfl Iff.rfl
  | get key => exact .inr (orderly.read_continues key)
  | flush => exact orderly.flush_proceeds
  | pass thread => exact orderly.pass_proceeds undisturbed

end Orderly

/-! ## Whole schedules -/

theorem overwritten_append (base : Key → Option Bytes) (history later : List Operation) :
    overwritten base (history ++ later) = overwritten (overwritten base history) later :=
  List.foldl_append

/-- **A schedule keeps a state orderly.** -/
theorem Orderly.run {sound : fmt.Sound fun _ _ => True} {expected : Key → Option Bytes}
    {state final : State fmt} {events : List Event} (orderly : Orderly sound expected state)
    (undisturbed : AllEvents Undisturbed events state)
    (ran : LsmStore.run events state = some final) :
    Orderly sound (overwritten expected (events.filterMap Event.operation)) final := by
  induction events generalizing state expected with
  | nil =>
      cases ran
      exact orderly
  | cons event rest ih =>
      obtain ⟨now, later⟩ := undisturbed
      have history : overwritten expected ((event :: rest).filterMap Event.operation) =
          overwritten (overwritten expected event.operation.toList)
            (rest.filterMap Event.operation) := by
        rw [← overwritten_append]
        cases accepted : event.operation with
        | none => rw [List.filterMap_cons_none accepted]; rfl
        | some operation => rw [List.filterMap_cons_some accepted]; rfl
      rw [history]
      rcases orderly.step now with ⟨_, stopped⟩ | ⟨next, stepped, after⟩
      · rw [LsmStore.run, stopped] at ran
        cases ran
      · rw [stepped] at later
        exact ih after later ((run_cons stepped rest).symm.trans ran)

/-- A read of an orderly state. -/
theorem Orderly.eval_get {sound : fmt.Sound fun _ _ => True} {expected : Key → Option Bytes}
    {state : State fmt} (orderly : Orderly sound expected state) {key : Key}
    (valid : validateKey key = .ok ()) : state.db.eval (get key) = .ok (expected key) := by
  rw [LsmStore.eval_get sound orderly.kept.stocked.held orderly.kept.coherent valid,
    orderly.reads key]

/-! ## The background worker alone -/

section Content

variable {sizing : BloomSizing} {fileSize : Options → List (Key × Entry) → Nat}

end Content

section Content

variable {sizing : BloomSizing} {fileSize : Options → List (Key × Entry) → Nat}

end Content

/-- The database after some commands. -/
def Db.after (options : Options) (commands : List Command) : Db smallTables :=
  match executeAll commands (Db.new smallTables options) with
  | .ok db => db
  | .error _ => Db.new smallTables options

/-- Two entries in level 1, which is one more than its limit. -/
def crowded : Db smallTables :=
  .after { eagerOptions 3 with memtableSizeBytes := 1 } [.put [1] [10], .put [2] [20], .compact]

end LsmStore
