import LsmStore.CrashSafety

/-!
# What no failure takes away

Flushes and passes fail at any of their file operations, the process stops and is
started again, and still every table of the current version can be read
(`Sturdy.held`).  The reason is the same as for the live tables of the manifest: a
file is only ever created under an id that no file has, and a file that a running
pass or a snapshot needs is not removed.

Nothing is asked here of the appends to the manifest that fail.  Asked is that every
table that is created fits its format, and that a directory that is opened again has
no table file with an id that the recovered counter would hand out a second time
(`Happening.Orderly`).
-/

set_option autoImplicit false

namespace LsmStore

open Foundation

variable {fmt : TableFormat} {Fits : Options → List (Key × Entry) → Prop}

/-! ## Databases that keep growing -/

/-- Files stay, and ids are only ever handed out. -/
structure Extends (db db' : Db fmt) : Prop where
  files : ∀ id file, db.disk.sst id = some file → db'.disk.sst id = some file
  next : db.engine.manifest.nextTableId.toNat ≤ db'.engine.manifest.nextTableId.toNat

theorem Extends.of_eq {db db' : Db fmt} (files : db'.disk.sst = db.disk.sst)
    (manifest : db'.engine.manifest = db.engine.manifest) : Extends db db' :=
  ⟨fun _ _ present => by rw [files]; exact present, by rw [manifest]⟩

theorem Held.extend {sound : fmt.Sound Fits} {db db' : Db fmt} {table : SsTable fmt}
    (held : Held sound db.disk.sst table) (grown : Extends db db') :
    Held sound db'.disk.sst table := by
  obtain ⟨file, present, holds⟩ := held
  exact Held.congr ⟨file, present, holds⟩ ((grown.files _ _ present).trans present.symm)

/-- The id has been handed out, and no file has it. -/
structure Db.Reserved (db : Db fmt) (id : UInt64) : Prop where
  blank : db.disk.sst id = none
  below : id.toNat < db.engine.manifest.nextTableId.toNat

/-- What holds of a database at any time, whatever failed before. -/
structure Rooted (sound : fmt.Sound Fits) (db : Db fmt) : Prop where
  whole : ∀ id file, db.disk.sst id = some file → ∃ handle entries, sound.Holds handle file entries
  held : ∀ table ∈ db.engine.version.tablesNewestFirst, Held sound db.disk.sst table
  below : ∀ id, db.disk.sst id ≠ none → id.toNat < db.engine.manifest.nextTableId.toNat
  listed : ∀ id ∈ db.engine.manifest.ids, id.toNat < db.engine.manifest.nextTableId.toNat
  coherent : sound.Coherent db.disk.sst db.engine.cache
  keyed : ∀ pair ∈ db.engine.memtable.iter, pair.1 ≠ []

/-- The keys of a memtable stay nonempty when an operation on a nonempty key is applied. -/
theorem keyed_apply {memtable : MemTable} {operation : Operation}
    (keyed : ∀ pair ∈ memtable.iter, pair.1 ≠ []) (nonempty : operation.key ≠ []) :
    ∀ pair ∈ (apply memtable operation).iter, pair.1 ≠ [] := by
  intro pair member
  have found := (apply memtable operation).iter_sorted.valueAt_of_mem member
  rw [MemTable.valueAt_iter, get_apply] at found
  split at found
  · rename_i same
    rw [same]
    exact nonempty
  · exact keyed pair (mem_of_valueAt found)

namespace Rooted

variable {sound : fmt.Sound Fits} {db db' : Db fmt}

/-- Whatever leaves table files, manifest, version and cache alone. -/
theorem frame (rooted : Rooted sound db) (files : db'.disk.sst = db.disk.sst)
    (manifest : db'.engine.manifest = db.engine.manifest)
    (version : db'.engine.version = db.engine.version)
    (cache : db'.engine.cache = db.engine.cache)
    (keyed : ∀ pair ∈ db'.engine.memtable.iter, pair.1 ≠ []) : Rooted sound db' where
  whole := by rw [files]; exact rooted.whole
  held := by rw [files, version]; exact rooted.held
  below := by rw [files, manifest]; exact rooted.below
  listed := by rw [manifest]; exact rooted.listed
  coherent := by rw [files, cache]; exact rooted.coherent
  keyed := keyed

theorem planned (rooted : Rooted sound db) (plan : List Verdict) :
    Rooted sound (db.planned plan) :=
  rooted.frame rfl rfl rfl rfl rooted.keyed

theorem valid (rooted : Rooted sound db) : ValidRun db.engine.memtable.iter :=
  validRun_memtable rooted.keyed

theorem unused_next (rooted : Rooted sound db) :
    db.disk.sst db.engine.manifest.nextTableId = none := by
  by_contra isUsed
  exact absurd (rooted.below _ isUsed) (lt_irrefl _)

theorem unlisted_next (rooted : Rooted sound db) :
    db.engine.manifest.lists db.engine.manifest.nextTableId = false := by
  by_contra isListed
  have below := rooted.listed _ (Manifest.lists_iff.mp (by simpa using isListed))
  omega

/-- The manifest changes: no id is handed out twice, and only known ids are listed. -/
theorem withManifest (rooted : Rooted sound db) (files : db'.disk.sst = db.disk.sst)
    (next : db.engine.manifest.nextTableId.toNat ≤ db'.engine.manifest.nextTableId.toNat)
    (listed : ∀ id ∈ db'.engine.manifest.ids,
      id ∈ db.engine.manifest.ids ∨ id.toNat < db'.engine.manifest.nextTableId.toNat)
    (version : db'.engine.version = db.engine.version)
    (cache : db'.engine.cache = db.engine.cache)
    (memtable : db'.engine.memtable = db.engine.memtable) : Rooted sound db' where
  whole := by rw [files]; exact rooted.whole
  held := by rw [files, version]; exact rooted.held
  below := by
    rw [files]
    exact fun id isUsed => lt_of_lt_of_le (rooted.below id isUsed) next
  listed := by
    intro id isListed
    rcases listed id isListed with known | below
    · exact lt_of_lt_of_le (rooted.listed id known) next
    · exact below
  coherent := by rw [files, cache]; exact rooted.coherent
  keyed := by rw [memtable]; exact rooted.keyed

/-- A complete file is created under a reserved id. -/
theorem withTable (rooted : Rooted sound db) {id : UInt64} (reserved : db.Reserved id)
    {file : fmt.File} {handle : fmt.Handle} {entries : List (Key × Entry)}
    (holds : sound.Holds handle file entries) (faults : List Verdict) :
    Extends db { db with disk := db.disk.withTable id file, faults := faults } ∧
      Rooted sound { db with disk := db.disk.withTable id file, faults := faults } := by
  have others : ∀ other, other ≠ id → (db.disk.withTable id file).sst other = db.disk.sst other :=
    fun other different => Function.update_of_ne different _ _
  have own : (db.disk.withTable id file).sst id = some file := Function.update_self ..
  have grown : Extends db { db with disk := db.disk.withTable id file, faults := faults } := by
    refine ⟨fun other old present => ?_, le_refl _⟩
    have different : other ≠ id := by
      rintro rfl
      rw [reserved.blank] at present
      cases present
    exact (others other different).trans present
  refine ⟨grown,
    { whole := ?_
      held := fun table member => (rooted.held table member).extend grown
      below := ?_
      listed := rooted.listed
      coherent := sound.coherent_create id file rooted.coherent reserved.blank
      keyed := rooted.keyed }⟩
  · intro other found present
    by_cases same : other = id
    · rw [same] at present
      cases own.symm.trans present
      exact ⟨handle, entries, holds⟩
    · exact rooted.whole other found ((others other same).symm.trans present)
  · intro other isUsed
    by_cases same : other = id
    · rw [same]
      exact reserved.below
    · exact rooted.below other fun absent => isUsed ((others other same).trans absent)

/-- The version changes: every table in it is held. -/
theorem withVersion (rooted : Rooted sound db) {version : Version fmt}
    (held : ∀ table ∈ version.tablesNewestFirst, Held sound db.disk.sst table)
    (faults : List Verdict) :
    Rooted sound
      { db with engine := { db.engine with version := version }, faults := faults } :=
  { whole := rooted.whole
    held := held
    below := rooted.below
    listed := rooted.listed
    coherent := rooted.coherent
    keyed := rooted.keyed }

end Rooted

/-! ## What the actions keep -/

namespace Rooted

variable {sound : fmt.Sound Fits} {db db' : Db fmt} {failure : Failure}

theorem of_logAndApply (rooted : Rooted sound db) {operation : Operation}
    (keyed : operation.key ≠ []) (done : logAndApply operation db = .ok () db') :
    Rooted sound db' := by
  obtain ⟨_, mid, appended, done⟩ := bind_eq_ok.mp done
  obtain ⟨_, last, synced, done⟩ := bind_eq_ok.mp done
  obtain ⟨_, faults, rfl⟩ := walAppend_of_ok appended
  obtain ⟨faults, rfl⟩ := walSync_of_ok synced
  cases done
  exact rooted.frame rfl rfl rfl rfl (keyed_apply rooted.keyed keyed)

theorem of_logAndApply_error (rooted : Rooted sound db) {operation : Operation}
    (failed : logAndApply operation db = .error failure db') : Rooted sound db' := by
  rcases bind_eq_error.mp failed with failed | ⟨_, mid, appended, failed⟩
  · rcases walAppend_of_error failed with ⟨_, rfl⟩ | ⟨_, _, progress, faults, _, rfl⟩
    · exact rooted
    · exact rooted.frame rfl rfl rfl rfl rooted.keyed
  obtain ⟨_, faults, rfl⟩ := walAppend_of_ok appended
  rcases bind_eq_error.mp failed with failed | ⟨_, mid, synced, failed⟩
  · obtain ⟨_, faults, rfl⟩ := walSync_of_error failed
    exact rooted.frame rfl rfl rfl rfl rooted.keyed
  · cases failed

theorem of_get (rooted : Rooted sound db) (key : Key) :
    (∀ {value}, get key db = .ok value db' → Rooted sound db') ∧
      (∀ {failure}, get key db = .error failure db' → Rooted sound db') := by
  obtain ⟨cache, skips, reads, searched, coherent⟩ :=
    searchTables_spec sound key rooted.held rooted.coherent
  have noted : Rooted sound
      { db with
        engine :=
          { db.engine with cache := cache, bloomSkips := skips, sstableReads := reads } } :=
    { rooted with coherent := coherent }
  have searchDone : getFromTables key db = _ := searched
  have same : ∀ {result : EStateM.Result Failure (Db fmt) (Option Bytes)}, get key db = result →
      (∃ value, result = .ok value db) ∨ (∃ failure, result = .error failure db) ∨
        result = getFromTables key db := by
    rintro result rfl
    unfold get
    split
    · exact .inr (.inl ⟨_, rfl⟩)
    · split
      · exact .inl ⟨_, rfl⟩
      · exact .inl ⟨_, rfl⟩
      · split
        · exact .inl ⟨_, rfl⟩
        · exact .inl ⟨_, rfl⟩
        · exact .inr (.inr rfl)
  constructor
  · intro value done
    rcases same done with ⟨_, isOk⟩ | ⟨_, isError⟩ | isSearch
    · cases isOk
      exact rooted
    · cases isError
    · rw [searchDone] at isSearch
      cases isSearch
      exact noted
  · intro failure failed
    rcases same failed with ⟨_, isOk⟩ | ⟨_, isError⟩ | isSearch
    · cases isOk
    · cases isError
      exact rooted
    · rw [searchDone] at isSearch
      cases isSearch

theorem of_nextTableId (rooted : Rooted sound db) {id : UInt64}
    (done : nextTableId db = .ok id db') :
    id = db.engine.manifest.nextTableId ∧ db'.disk.sst = db.disk.sst ∧ Extends db db' ∧
      Rooted sound db' ∧ db'.Reserved id := by
  obtain ⟨rfl, room, faults, rfl⟩ := nextTableId_of_ok done
  have next := toNat_succ room
  have grown : db.engine.manifest.nextTableId.toNat ≤
      (db.engine.manifest.nextTableId + 1).toNat := by
    rw [next]
    exact Nat.le_succ _
  refine ⟨rfl, rfl, ⟨fun _ _ present => present, grown⟩,
    rooted.withManifest rfl grown (fun id known => .inl known) rfl rfl rfl,
    ⟨rooted.unused_next, ?_⟩⟩
  change db.engine.manifest.nextTableId.toNat < (db.engine.manifest.nextTableId + 1).toNat
  rw [next]
  exact Nat.lt_succ_self _

theorem of_nextTableId_error (rooted : Rooted sound db)
    (failed : nextTableId db = .error failure db') :
    db'.disk.sst = db.disk.sst ∧ Extends db db' ∧ Rooted sound db' := by
  rcases nextTableId_of_error failed with ⟨_, _, rfl⟩ | ⟨_, room, progress, faults, plan, rfl⟩
  · exact ⟨rfl, .of_eq rfl rfl, rooted⟩
  · have grown : db.engine.manifest.nextTableId.toNat ≤
        (db.engine.manifest.nextTableId + 1).toNat := by
      rw [toNat_succ room]
      exact Nat.le_succ _
    exact ⟨rfl, ⟨fun _ _ present => present, grown⟩,
      rooted.withManifest rfl grown (fun id known => .inl known) rfl rfl rfl⟩

theorem of_addTable (rooted : Rooted sound db) {id : UInt64} {level : UInt32}
    (below : id.toNat < db.engine.manifest.nextTableId.toNat)
    (done : addTable id level db = .ok () db') :
    db'.disk.sst = db.disk.sst ∧ Extends db db' ∧ Rooted sound db' := by
  obtain ⟨_, faults, rfl⟩ := addTable_of_ok done
  refine ⟨rfl, ⟨fun _ _ present => present, le_refl _⟩,
    rooted.withManifest rfl (le_refl _) ?_ rfl rfl rfl⟩
  intro other isListed
  rw [Manifest.ids, Manifest.added, List.map_append] at isListed
  rcases List.mem_append.mp isListed with old | new
  · exact .inl old
  · rw [List.mem_singleton.mp new]
    exact .inr below

theorem of_addTable_error (rooted : Rooted sound db) {id : UInt64} {level : UInt32}
    (failed : addTable id level db = .error failure db') :
    db'.disk.sst = db.disk.sst ∧ Extends db db' ∧ Rooted sound db' := by
  rcases addTable_of_error failed with ⟨_, _, rfl⟩ | ⟨_, progress, faults, plan, rfl⟩
  · exact ⟨rfl, .of_eq rfl rfl, rooted⟩
  · exact ⟨rfl, .of_eq rfl rfl, rooted.frame rfl rfl rfl rfl rooted.keyed⟩

theorem of_createTable (rooted : Rooted sound db) {id : UInt64} {entries : List (Key × Entry)}
    {table : SsTable fmt} (reserved : db.Reserved id) (valid : ValidRun entries)
    (fits : Fits db.engine.options entries) (done : createTable id entries db = .ok table db') :
    table.id = id ∧ (∀ other, other ≠ id → db'.disk.sst other = db.disk.sst other) ∧
      Extends db db' ∧ Rooted sound db' ∧ Held sound db'.disk.sst table := by
  obtain ⟨file, handle, faults, created, rfl, rfl⟩ := createTable_of_ok done
  obtain ⟨made, holder, isMade, holds⟩ := sound.create_ok valid fits
  cases created.symm.trans isMade
  obtain ⟨grown, rooted'⟩ := rooted.withTable reserved holds faults
  exact ⟨rfl, fun other different => Function.update_of_ne different _ _, grown, rooted',
    Held.intro sound (Function.update_self ..) holds⟩

theorem of_createTable_error (rooted : Rooted sound db) {id : UInt64}
    {entries : List (Key × Entry)} (reserved : db.Reserved id) (valid : ValidRun entries)
    (fits : Fits db.engine.options entries) (failed : createTable id entries db = .error failure db') :
    (∀ other, other ≠ id → db'.disk.sst other = db.disk.sst other) ∧ Extends db db' ∧
      Rooted sound db' := by
  obtain ⟨made, holder, isMade, holds⟩ := sound.create_ok valid fits
  rcases createTable_of_error failed with
    ⟨refused, rfl⟩ | ⟨file, handle, created, _, disk, faults, rfl, rfl | rfl | rfl⟩
  · exact ⟨fun _ _ => rfl, .of_eq rfl rfl, rooted⟩
  · exact ⟨fun _ _ => rfl, .of_eq rfl rfl, rooted.frame rfl rfl rfl rfl rooted.keyed⟩
  · exact ⟨fun _ _ => rfl, .of_eq rfl rfl, rooted.frame rfl rfl rfl rfl rooted.keyed⟩
  · cases created.symm.trans isMade
    exact ⟨fun other different => Function.update_of_ne different _ _,
      rooted.withTable reserved holds faults⟩

/-- Removing tables from the manifest, as far as it goes. -/
theorem withRemoved (rooted : Rooted sound db) (gone : List UInt64) (bytes : Bytes)
    (faults : List Verdict) :
    Rooted sound
      { disk := { db.disk with manifest := bytes }
        engine := { db.engine with manifest := db.engine.manifest.removed gone }
        faults := faults } := by
  refine rooted.withManifest rfl (le_refl _) ?_ rfl rfl rfl
  intro id isListed
  obtain ⟨place, member, same⟩ := List.mem_map.mp isListed
  exact .inl (List.mem_map.mpr ⟨place, List.mem_of_mem_filter member, same⟩)

theorem of_recordCompaction (rooted : Rooted sound db) {id : UInt64} {job : CompactionJob fmt}
    (below : id.toNat < db.engine.manifest.nextTableId.toNat)
    (done : recordCompaction id job db = .ok () db') :
    db'.disk.sst = db.disk.sst ∧ Extends db db' ∧ Rooted sound db' := by
  obtain ⟨_, mid, added, removed⟩ := bind_eq_ok.mp done
  obtain ⟨sameFiles, grown, rooted'⟩ := rooted.of_addTable below added
  obtain ⟨faults, rfl⟩ := removeTables_of_ok removed
  exact ⟨sameFiles, ⟨grown.files, grown.next⟩, rooted'.withRemoved _ _ faults⟩

theorem of_recordCompaction_error (rooted : Rooted sound db) {id : UInt64}
    {job : CompactionJob fmt} (below : id.toNat < db.engine.manifest.nextTableId.toNat)
    (failed : recordCompaction id job db = .error failure db') :
    db'.disk.sst = db.disk.sst ∧ Extends db db' ∧ Rooted sound db' := by
  rcases bind_eq_error.mp failed with failed | ⟨_, mid, added, failed⟩
  · exact rooted.of_addTable_error failed
  · obtain ⟨sameFiles, grown, rooted'⟩ := rooted.of_addTable below added
    obtain ⟨_, gone, last, rest, progress, faults, _, planned, rfl⟩ := removeTables_of_error failed
    exact ⟨sameFiles, ⟨grown.files, grown.next⟩, rooted'.withRemoved gone _ faults⟩

theorem of_pushFront (rooted : Rooted sound db) {table : SsTable fmt}
    (held : Held sound db.disk.sst table) (done : pushFront table db = .ok () db') :
    SameTables db db' ∧ Rooted sound db' := by
  refine ⟨(Leaves.pushFront table).ok done, ?_⟩
  unfold pushFront at done
  split at done
  · cases done
  · rename_i version pushed
    cases done
    refine rooted.withVersion ?_ _
    rw [(pushFront_eq_ok pushed).1]
    exact List.forall_mem_cons.mpr ⟨held, rooted.held⟩

theorem of_pushFront_error (rooted : Rooted sound db) {table : SsTable fmt}
    (failed : pushFront table db = .error failure db') :
    SameTables db db' ∧ Rooted sound db' := by
  refine ⟨(Leaves.pushFront table).error failed, ?_⟩
  unfold pushFront at failed
  split at failed <;> cases failed
  exact rooted

theorem of_installCompaction (rooted : Rooted sound db) {job : CompactionJob fmt}
    {output : SsTable fmt} (held : Held sound db.disk.sst output)
    (done : installCompaction job output db = .ok () db') : Rooted sound db' := by
  unfold installCompaction at done
  split at done
  · cases done
  · rename_i version installed
    cases done
    refine rooted.withVersion ?_ _
    intro table member
    rcases mem_of_applyCompaction installed member with rfl | known
    · exact held
    · exact rooted.held table known

theorem of_installCompaction_error (rooted : Rooted sound db) {job : CompactionJob fmt}
    {output : SsTable fmt} (failed : installCompaction job output db = .error failure db') :
    Rooted sound db' := by
  unfold installCompaction at failed
  split at failed <;> cases failed
  exact rooted

end Rooted

/-! ## Operations under way -/

/-- What a pass needs of its inputs: the snapshot owns them, and their files are there. -/
def InputsHeld (sound : fmt.Sound Fits) (db : Db fmt) (snapshot : Version fmt)
    (job : CompactionJob fmt) : Prop :=
  ∀ input ∈ job.inputs, input ∈ snapshot.tablesNewestFirst ∧ Held sound db.disk.sst input

/-- What holds of a pass under way. -/
def Pass.Rooted (sound : fmt.Sound Fits) (db : Db fmt) : Pass fmt → Prop
  | .idle => True
  | .picked snapshot job => InputsHeld sound db snapshot job
  | .allocated snapshot job id => InputsHeld sound db snapshot job ∧ db.Reserved id
  | .written snapshot job output | .recorded snapshot job output =>
      InputsHeld sound db snapshot job ∧ Held sound db.disk.sst output

/-- What holds of a flush under way. -/
def Flush.Rooted (sound : fmt.Sound Fits) (db : Db fmt) : Flush fmt → Prop
  | .idle | .installed _ | .truncated _ => True
  | .frozen snapshot => ValidRun snapshot
  | .allocated snapshot id => ValidRun snapshot ∧ db.Reserved id
  | .written _ table | .recorded _ table => Held sound db.disk.sst table

section Frames

variable {sound : fmt.Sound Fits} {db db' : Db fmt}

theorem Db.Reserved.extend {id : UInt64} (reserved : db.Reserved id) (grown : Extends db db')
    (blank : db'.disk.sst id = none) : db'.Reserved id :=
  ⟨blank, lt_of_lt_of_le reserved.below grown.next⟩

theorem InputsHeld.extend {snapshot : Version fmt} {job : CompactionJob fmt}
    (inputs : InputsHeld sound db snapshot job) (grown : Extends db db') :
    InputsHeld sound db' snapshot job :=
  fun input isInput => ⟨(inputs input isInput).1, (inputs input isInput).2.extend grown⟩

/-- A pass goes on to be rooted as long as nobody creates a file under its id. -/
theorem Pass.Rooted.extend {pass : Pass fmt} (rooted : pass.Rooted sound db)
    (grown : Extends db db') (blank : ∀ id, pass.slot = .blank id → db'.disk.sst id = none) :
    pass.Rooted sound db' := by
  cases pass with
  | idle => trivial
  | picked snapshot job => exact InputsHeld.extend rooted grown
  | allocated snapshot job id =>
      exact ⟨rooted.1.extend grown, rooted.2.extend grown (blank id rfl)⟩
  | written snapshot job output => exact ⟨rooted.1.extend grown, rooted.2.extend grown⟩
  | recorded snapshot job output => exact ⟨rooted.1.extend grown, rooted.2.extend grown⟩

theorem Flush.Rooted.extend {flush : Flush fmt} (rooted : flush.Rooted sound db)
    (grown : Extends db db') (blank : ∀ id, flush.slot = .blank id → db'.disk.sst id = none) :
    flush.Rooted sound db' := by
  cases flush with
  | idle => trivial
  | frozen snapshot => exact rooted
  | allocated snapshot id => exact ⟨rooted.1, rooted.2.extend grown (blank id rfl)⟩
  | written snapshot table => exact Held.extend rooted grown
  | recorded snapshot table => exact Held.extend rooted grown
  | installed snapshot => trivial
  | truncated snapshot => trivial

end Frames

/-! ## States -/

/-- What holds of a state at any time, whatever failed before. -/
structure Sturdy (sound : fmt.Sound Fits) (state : State fmt) : Prop where
  rooted : Rooted sound state.db
  flush : state.flush.Rooted sound state.db
  passes : ∀ thread, (state.passes thread).Rooted sound state.db
  apart : ∀ owner owner' id, (state.slot owner).id = some id → (state.slot owner').id = some id →
    owner = owner'

namespace Sturdy

variable {sound : fmt.Sound Fits} {state : State fmt}

/-- An id that is allocated and not used has no file. -/
theorem blank (sturdy : Sturdy sound state) {owner : Owner} {id : UInt64}
    (isSlot : state.slot owner = .blank id) : state.db.disk.sst id = none := by
  cases owner with
  | none =>
      have own := sturdy.flush
      rw [State.slot] at isSlot
      cases stage : state.flush <;> rw [stage] at isSlot own <;> cases isSlot
      exact own.2.blank
  | some thread =>
      have own := sturdy.passes thread
      rw [State.slot] at isSlot
      cases stage : state.passes thread <;> rw [stage] at isSlot own <;> cases isSlot
      exact own.2.blank

theorem held_below (rooted : Rooted sound state.db) {table : SsTable fmt}
    (held : Held sound state.db.disk.sst table) :
    table.id.toNat < state.db.engine.manifest.nextTableId.toNat := by
  obtain ⟨file, present, _⟩ := held
  exact rooted.below table.id (by rw [present]; exact Option.some_ne_none file)

/-- The id of a slot has been handed out. -/
theorem slot_below (sturdy : Sturdy sound state) {owner : Owner} {id : UInt64}
    (isId : (state.slot owner).id = some id) :
    id.toNat < state.db.engine.manifest.nextTableId.toNat := by
  cases owner with
  | none =>
      have own := sturdy.flush
      rw [State.slot] at isId
      cases stage : state.flush <;> rw [stage] at isId own <;> cases isId
      · exact own.2.below
      · exact held_below sturdy.rooted own
  | some thread =>
      have own := sturdy.passes thread
      rw [State.slot] at isId
      cases stage : state.passes thread <;> rw [stage] at isId own <;> cases isId
      · exact own.2.below
      · exact held_below sturdy.rooted own.2

/-- The next id is nobody's. -/
theorem fresh (sturdy : Sturdy sound state) (owner : Owner) :
    (state.slot owner).id ≠ some state.db.engine.manifest.nextTableId :=
  fun isId => absurd (sturdy.slot_below isId) (lt_irrefl _)

/-- A file that only one owner may have created is nobody else's. -/
theorem others_blank (sturdy : Sturdy sound state) {own other : Owner} (different : other ≠ own)
    {db : Db fmt}
    (files : ∀ id, state.slot own ≠ .blank id → db.disk.sst id = state.db.disk.sst id)
    {id : UInt64} (isSlot : state.slot other = .blank id) : db.disk.sst id = none := by
  refine (files id fun isOwn => ?_).trans (sturdy.blank isSlot)
  exact different (sturdy.apart other own id (by rw [isSlot]; rfl) (by rw [isOwn]; rfl))

/-- The flush goes on, and at most creates a file under its id. -/
theorem withFlush (sturdy : Sturdy sound state) {db : Db fmt} {flush : Flush fmt}
    (rooted : Rooted sound db) (grown : Extends state.db db)
    (files : ∀ id, state.slot none ≠ .blank id → db.disk.sst id = state.db.disk.sst id)
    (new : flush.Rooted sound db)
    (fresh : ∀ other id, other ≠ none → flush.slot.id = some id →
      (state.slot other).id ≠ some id) :
    Sturdy sound { state with db := db.planned [], flush := flush } where
  rooted := rooted.planned []
  flush := by
    refine new.extend (.of_eq rfl rfl) fun id isSlot => ?_
    cases flush <;> cases isSlot
    exact new.2.blank
  passes thread :=
    ((sturdy.passes thread).extend grown fun id isSlot =>
      sturdy.others_blank (Option.some_ne_none thread) files isSlot).extend (.of_eq rfl rfl)
        fun id isSlot => sturdy.others_blank (Option.some_ne_none thread) files isSlot
  apart := by
    rw [State.slot_flush]
    exact Guarded.apart_update sturdy.apart fresh

/-- A pass goes on, and at most creates a file under its id. -/
theorem withPass (sturdy : Sturdy sound state) {db : Db fmt} {thread : Thread} {pass : Pass fmt}
    (rooted : Rooted sound db) (grown : Extends state.db db)
    (files : ∀ id, state.slot (some thread) ≠ .blank id →
      db.disk.sst id = state.db.disk.sst id)
    (new : pass.Rooted sound db)
    (fresh : ∀ other id, other ≠ some thread → pass.slot.id = some id →
      (state.slot other).id ≠ some id) :
    Sturdy sound
      { state with
        db := db.planned [], passes := Function.update state.passes thread pass } where
  rooted := rooted.planned []
  flush := by
    have blank : ∀ id, state.flush.slot = .blank id → db.disk.sst id = none := fun id isSlot =>
      sturdy.others_blank (Option.some_ne_none thread).symm files
        (show state.slot none = .blank id from isSlot)
    exact (sturdy.flush.extend grown blank).extend (.of_eq rfl rfl) blank
  passes other := by
    by_cases same : other = thread
    · rw [same]
      dsimp only
      rw [Function.update_self]
      refine new.extend (.of_eq rfl rfl) fun id isSlot => ?_
      cases pass <;> cases isSlot
      exact new.2.blank
    · have blank : ∀ id, (state.passes other).slot = .blank id → db.disk.sst id = none :=
        fun id isSlot => sturdy.others_blank (by simpa using same) files
          (show state.slot (some other) = .blank id from isSlot)
      dsimp only
      rw [Function.update_of_ne same]
      exact ((sturdy.passes other).extend grown blank).extend (.of_eq rfl rfl) blank
  apart := by
    rw [State.slot_pass]
    exact Guarded.apart_update sturdy.apart fresh

/-- An action that leaves files and manifest alone. -/
theorem withDb (sturdy : Sturdy sound state) {db : Db fmt} (rooted : Rooted sound db)
    (same : SameTables state.db db) : Sturdy sound { state with db := db } where
  rooted := rooted
  flush := sturdy.flush.extend (.of_eq same.files same.memory) fun id isSlot => by
    rw [same.files]
    exact sturdy.blank (show state.slot none = .blank id from isSlot)
  passes thread := (sturdy.passes thread).extend (.of_eq same.files same.memory)
    fun id isSlot => by
      rw [same.files]
      exact sturdy.blank (show state.slot (some thread) = .blank id from isSlot)
  apart := sturdy.apart

/-! ### Writes and reads -/

theorem write (sturdy : Sturdy sound state) (plan : List Verdict) {operation : Option Operation}
    (keyed : ∀ written ∈ operation, written.key ≠ []) :
    Sturdy sound (state.attemptWrite plan operation) := by
  unfold State.attemptWrite
  split
  · rename_i operation _
    have rooted := sturdy.rooted.planned plan
    split
    · rename_i db done
      have same := (Leaves.logAndApply operation).ok done
      exact sturdy.withDb ((rooted.of_logAndApply (keyed operation rfl) done).planned [])
        ⟨same.bytes, same.files, same.memory⟩
    · rename_i failure db failed
      have same := (Leaves.logAndApply operation).error failed
      exact sturdy.withDb ((rooted.of_logAndApply_error failed).planned [])
        ⟨same.bytes, same.files, same.memory⟩
  · exact sturdy

theorem read (sturdy : Sturdy sound state) (key : Key) : Sturdy sound (state.attemptRead key) := by
  unfold State.attemptRead
  split
  · rename_i value db done
    exact sturdy.withDb ((sturdy.rooted.of_get key).1 done) ((Leaves.get key).ok done)
  · rename_i failure db failed
    exact sturdy.withDb ((sturdy.rooted.of_get key).2 failed) ((Leaves.get key).error failed)

/-! ### Flushes -/

section Flushes

variable {plan : List Verdict}

/-- The flush is given up. -/
theorem giveUpFlush (sturdy : Sturdy sound state) {failure : Failure} {db : Db fmt}
    (failed : state.flush.advance (state.db.planned plan) = .error failure db)
    (rooted : Rooted sound db) (grown : Extends state.db db)
    (files : ∀ id, state.slot none ≠ .blank id → db.disk.sst id = state.db.disk.sst id) :
    Sturdy sound (state.attemptFlush plan) := by
  rw [State.attemptFlush_of_error failed]
  exact sturdy.withFlush rooted grown files trivial fun _ _ _ isId => nomatch isId

/-- A step of the flush that leaves files and manifest alone and needs no id. -/
theorem quietFlush (sturdy : Sturdy sound state) {flush : Flush fmt} {db : Db fmt}
    (done : state.flush.advance (state.db.planned plan) = .ok flush db)
    (rooted : Rooted sound db) (same : SameTables state.db db) (new : flush.Rooted sound db)
    (empty : flush.slot = .empty) : Sturdy sound (state.attemptFlush plan) := by
  rw [State.attemptFlush_of_ok done]
  refine sturdy.withFlush rooted (.of_eq same.files same.memory) (fun _ _ => by rw [same.files])
    new ?_
  rw [empty]
  exact fun _ _ _ isId => nomatch isId

theorem freezeFlush (sturdy : Sturdy sound state) (stage : state.flush = .idle) :
    Sturdy sound (state.attemptFlush plan) := by
  have rooted := sturdy.rooted.planned plan
  cases empty : state.db.engine.memtable.isEmpty with
  | true =>
      cases ran : walSync (state.db.planned plan) with
      | ok value db =>
          have done : state.flush.advance (state.db.planned plan) = .ok .idle db := by
            rw [stage]
            exact Flush.advance_idle_of_empty empty ran
          obtain ⟨faults, rfl⟩ := walSync_of_ok ran
          exact sturdy.quietFlush done (rooted.frame rfl rfl rfl rfl rooted.keyed) ⟨rfl, rfl, rfl⟩
            trivial rfl
      | error failure db =>
          have failed : state.flush.advance (state.db.planned plan) = .error failure db := by
            rw [stage]
            refine (bind_of_ok (show current (state.db.planned plan) = .ok _ _ from rfl)).trans ?_
            rw [if_pos (show (state.db.planned plan).engine.memtable.isEmpty = true from empty)]
            exact bind_of_error ran
          obtain ⟨_, faults, rfl⟩ := walSync_of_error ran
          exact sturdy.giveUpFlush failed (rooted.frame rfl rfl rfl rfl rooted.keyed)
            (.of_eq rfl rfl) fun _ _ => rfl
  | false =>
      have done := Flush.advance_idle
        (show (state.db.planned plan).engine.memtable.isEmpty = false from empty) rfl
      rw [← stage] at done
      exact sturdy.quietFlush done (rooted.frame rfl rfl rfl rfl (List.forall_mem_nil _))
        ⟨rfl, rfl, rfl⟩ rooted.valid rfl

theorem allocateFlush {snapshot : List (Key × Entry)} (sturdy : Sturdy sound state)
    (stage : state.flush = .frozen snapshot) : Sturdy sound (state.attemptFlush plan) := by
  have rooted := sturdy.rooted.planned plan
  have own := sturdy.flush
  rw [stage] at own
  cases ran : nextTableId (state.db.planned plan) with
  | ok id db =>
      have done : state.flush.advance (state.db.planned plan) = .ok (.allocated snapshot id) db := by
        rw [stage]
        exact Flush.advance_frozen ran
      obtain ⟨isNext, files, grown, rooted', reserved⟩ := rooted.of_nextTableId ran
      rw [State.attemptFlush_of_ok done]
      refine sturdy.withFlush rooted' ⟨grown.files, grown.next⟩ (fun _ _ => by rw [files]; rfl)
        ⟨own, reserved⟩ ?_
      rintro other _ _ ⟨⟩
      rw [isNext]
      exact sturdy.fresh other
  | error failure db =>
      have failed : state.flush.advance (state.db.planned plan) = .error failure db := by
        rw [stage]
        exact bind_of_error ran
      obtain ⟨files, grown, rooted'⟩ := rooted.of_nextTableId_error ran
      exact sturdy.giveUpFlush failed rooted' ⟨grown.files, grown.next⟩
        fun _ _ => by rw [files]; rfl

theorem createFlush {snapshot : List (Key × Entry)} {id : UInt64} (sturdy : Sturdy sound state)
    (stage : state.flush = .allocated snapshot id) (fits : Fits state.db.engine.options snapshot) :
    Sturdy sound (state.attemptFlush plan) := by
  have rooted := sturdy.rooted.planned plan
  have own := sturdy.flush
  rw [stage] at own
  have reserved : (state.db.planned plan).Reserved id := ⟨own.2.blank, own.2.below⟩
  have isSlot : state.slot none = .blank id := by
    rw [State.slot, stage]
    rfl
  have elsewhere : ∀ other, state.slot none ≠ .blank other → other ≠ id := by
    rintro other unlike rfl
    exact unlike isSlot
  cases ran : createTable id snapshot (state.db.planned plan) with
  | ok table db =>
      have done : state.flush.advance (state.db.planned plan) = .ok (.written snapshot table) db := by
        rw [stage]
        exact Flush.advance_allocated ran
      obtain ⟨rfl, files, grown, rooted', held⟩ := rooted.of_createTable reserved own.1 fits ran
      rw [State.attemptFlush_of_ok done]
      refine sturdy.withFlush rooted' ⟨grown.files, grown.next⟩
        (fun other unlike => files other (elsewhere other unlike)) held ?_
      rintro other _ different ⟨⟩ isOther
      exact different (sturdy.apart other none table.id isOther (by rw [isSlot]; rfl))
  | error failure db =>
      have failed : state.flush.advance (state.db.planned plan) = .error failure db := by
        rw [stage]
        exact bind_of_error ran
      obtain ⟨files, grown, rooted'⟩ := rooted.of_createTable_error reserved own.1 fits ran
      exact sturdy.giveUpFlush failed rooted' ⟨grown.files, grown.next⟩
        fun other unlike => files other (elsewhere other unlike)

theorem recordFlush {snapshot : List (Key × Entry)} {table : SsTable fmt}
    (sturdy : Sturdy sound state) (stage : state.flush = .written snapshot table) :
    Sturdy sound (state.attemptFlush plan) := by
  have rooted := sturdy.rooted.planned plan
  have own := sturdy.flush
  rw [stage] at own
  cases ran : addTable table.id 0 (state.db.planned plan) with
  | ok value db =>
      have done : state.flush.advance (state.db.planned plan) = .ok (.recorded snapshot table) db := by
        rw [stage]
        exact Flush.advance_written ran
      obtain ⟨files, grown, rooted'⟩ := rooted.of_addTable (held_below sturdy.rooted own) ran
      rw [State.attemptFlush_of_ok done]
      exact sturdy.withFlush rooted' ⟨grown.files, grown.next⟩ (fun _ _ => by rw [files]; rfl)
        (Held.extend own ⟨grown.files, grown.next⟩) fun _ _ _ isId => nomatch isId
  | error failure db =>
      have failed : state.flush.advance (state.db.planned plan) = .error failure db := by
        rw [stage]
        exact bind_of_error ran
      obtain ⟨files, grown, rooted'⟩ := rooted.of_addTable_error ran
      exact sturdy.giveUpFlush failed rooted' ⟨grown.files, grown.next⟩
        fun _ _ => by rw [files]; rfl

theorem installFlush {snapshot : List (Key × Entry)} {table : SsTable fmt}
    (sturdy : Sturdy sound state) (stage : state.flush = .recorded snapshot table) :
    Sturdy sound (state.attemptFlush plan) := by
  have rooted := sturdy.rooted.planned plan
  have own := sturdy.flush
  rw [stage] at own
  cases ran : pushFront table (state.db.planned plan) with
  | ok value db =>
      have done : state.flush.advance (state.db.planned plan) = .ok (.installed snapshot) db := by
        rw [stage]
        exact Flush.advance_recorded ran
      obtain ⟨same, rooted'⟩ := rooted.of_pushFront own ran
      exact sturdy.quietFlush done rooted' ⟨same.bytes, same.files, same.memory⟩ trivial rfl
  | error failure db =>
      have failed : state.flush.advance (state.db.planned plan) = .error failure db := by
        rw [stage]
        exact bind_of_error ran
      obtain ⟨same, rooted'⟩ := rooted.of_pushFront_error ran
      exact sturdy.giveUpFlush failed rooted' (.of_eq same.files same.memory)
        fun _ _ => by rw [same.files]; rfl

theorem truncateFlush {snapshot : List (Key × Entry)} (sturdy : Sturdy sound state)
    (stage : state.flush = .installed snapshot) : Sturdy sound (state.attemptFlush plan) := by
  have rooted := sturdy.rooted.planned plan
  cases ran : walTruncate (state.db.planned plan) with
  | ok value db =>
      have done : state.flush.advance (state.db.planned plan) = .ok (.truncated snapshot) db := by
        rw [stage]
        exact Flush.advance_installed ran
      obtain ⟨faults, rfl⟩ := walTruncate_of_ok ran
      exact sturdy.quietFlush done (rooted.frame rfl rfl rfl rfl rooted.keyed) ⟨rfl, rfl, rfl⟩
        trivial rfl
  | error failure db =>
      have failed : state.flush.advance (state.db.planned plan) = .error failure db := by
        rw [stage]
        exact bind_of_error ran
      obtain ⟨_, wal, faults, _, rfl⟩ := walTruncate_of_error ran
      exact sturdy.giveUpFlush failed (rooted.frame rfl rfl rfl rfl rooted.keyed)
        (.of_eq rfl rfl) fun _ _ => rfl

/-- **A step of a flush keeps a state sturdy**, whether it succeeds or fails. -/
theorem flushStep (sturdy : Sturdy sound state)
    (fits : ∀ snapshot id, state.flush = .allocated snapshot id →
      Fits state.db.engine.options snapshot) :
    Sturdy sound (state.attemptFlush plan) := by
  cases stage : state.flush with
  | idle => exact sturdy.freezeFlush stage
  | frozen snapshot => exact sturdy.allocateFlush stage
  | allocated snapshot id => exact sturdy.createFlush stage (fits snapshot id stage)
  | written snapshot table => exact sturdy.recordFlush stage
  | recorded snapshot table => exact sturdy.installFlush stage
  | installed snapshot => exact sturdy.truncateFlush stage
  | truncated snapshot =>
      have rooted := sturdy.rooted.planned plan
      have done := @Flush.advance_truncated fmt snapshot (state.db.planned plan) _ rfl
      rw [← stage] at done
      exact sturdy.quietFlush done (rooted.frame rfl rfl rfl rfl rooted.keyed) ⟨rfl, rfl, rfl⟩
        trivial rfl

end Flushes

/-! ### Passes -/

section Passes

variable {plan : List Verdict} {thread : Thread}

/-- The pass is given up. -/
theorem giveUpPass (sturdy : Sturdy sound state) {failure : Failure} {db : Db fmt}
    (failed : (state.passes thread).advance (state.db.planned plan) = .error failure db)
    (rooted : Rooted sound db) (grown : Extends state.db db)
    (files : ∀ id, state.slot (some thread) ≠ .blank id →
      db.disk.sst id = state.db.disk.sst id) :
    Sturdy sound (state.attemptPass plan thread) := by
  rw [State.attemptPass_of_error failed]
  exact sturdy.withPass rooted grown files trivial fun _ _ _ isId => nomatch isId

theorem pickPass (sturdy : Sturdy sound state) (stage : state.passes thread = .idle) :
    Sturdy sound (state.attemptPass plan thread) := by
  have rooted := sturdy.rooted.planned plan
  cases picked : pickCompaction state.db.engine.version state.db.engine.options with
  | error failure =>
      have failed := @Pass.advance_idle_of_pick fmt (state.db.planned plan) (.error failure) picked
      rw [← stage] at failed
      exact sturdy.giveUpPass failed rooted (.of_eq rfl rfl) fun _ _ => rfl
  | ok choice =>
      have done := @Pass.advance_idle fmt (state.db.planned plan) _ picked
      cases choice with
      | none =>
          have rests : (state.passes thread).advance (state.db.planned plan) =
              .ok .idle (state.db.planned plan) := by
            rw [stage]
            exact done
          rw [State.attemptPass_of_ok rests]
          exact sturdy.withPass rooted (.of_eq rfl rfl) (fun _ _ => rfl) trivial
            fun _ _ _ isId => nomatch isId
      | some job =>
          rw [← stage] at done
          rw [State.attemptPass_of_ok done]
          refine sturdy.withPass rooted (.of_eq rfl rfl) (fun _ _ => rfl) ?_
            fun _ _ _ isId => nomatch isId
          intro input isInput
          have member := inputs_mem_of_pick picked input isInput
          exact ⟨member, sturdy.rooted.held input member⟩

theorem allocatePass {snapshot : Version fmt} {job : CompactionJob fmt}
    (sturdy : Sturdy sound state) (stage : state.passes thread = .picked snapshot job) :
    Sturdy sound (state.attemptPass plan thread) := by
  have rooted := sturdy.rooted.planned plan
  have own := sturdy.passes thread
  rw [stage] at own
  cases ran : nextTableId (state.db.planned plan) with
  | ok id db =>
      have done : (state.passes thread).advance (state.db.planned plan) =
          .ok (.allocated snapshot job id) db := by
        rw [stage]
        exact Pass.advance_picked ran
      obtain ⟨isNext, files, grown, rooted', reserved⟩ := rooted.of_nextTableId ran
      have wider : Extends state.db db := ⟨grown.files, grown.next⟩
      rw [State.attemptPass_of_ok done]
      refine sturdy.withPass rooted' wider (fun _ _ => by rw [files]; rfl)
        ⟨InputsHeld.extend own wider, reserved⟩ ?_
      rintro other _ _ ⟨⟩
      rw [isNext]
      exact sturdy.fresh other
  | error failure db =>
      have failed : (state.passes thread).advance (state.db.planned plan) = .error failure db := by
        rw [stage]
        exact bind_of_error ran
      obtain ⟨files, grown, rooted'⟩ := rooted.of_nextTableId_error ran
      exact sturdy.giveUpPass failed rooted' ⟨grown.files, grown.next⟩
        fun _ _ => by rw [files]; rfl

theorem createPass {snapshot : Version fmt} {job : CompactionJob fmt} {id : UInt64}
    (sturdy : Sturdy sound state) (stage : state.passes thread = .allocated snapshot job id)
    (fits : Fits state.db.engine.options (mergedEntries state.db.disk.sst job
      (dropTombstones snapshot state.db.engine.options job))) :
    Sturdy sound (state.attemptPass plan thread) := by
  have rooted := sturdy.rooted.planned plan
  have own := sturdy.passes thread
  rw [stage] at own
  obtain ⟨inputs, blank, below⟩ := own
  have heldInputs : ∀ input ∈ job.inputs, Held sound (state.db.planned plan).disk.sst input :=
    fun input isInput => (inputs input isInput).2
  have reserved : (state.db.planned plan).Reserved id := ⟨blank, below⟩
  have valid := (mergedEntries_spec heldInputs
    (dropTombstones snapshot state.db.engine.options job)).2.1
  have isSlot : state.slot (some thread) = .blank id := by
    rw [State.slot, stage]
    rfl
  have elsewhere : ∀ other, state.slot (some thread) ≠ .blank other → other ≠ id := by
    rintro other unlike rfl
    exact unlike isSlot
  have merges := writeOutput_eq sound snapshot id (state.db.planned plan) heldInputs
  cases ran : writeOutput snapshot job id (state.db.planned plan) with
  | ok output db =>
      have done : (state.passes thread).advance (state.db.planned plan) =
          .ok (.written snapshot job output) db := by
        rw [stage]
        exact Pass.advance_allocated ran
      obtain ⟨rfl, files, grown, rooted', held⟩ :=
        rooted.of_createTable reserved valid fits (merges.symm.trans ran)
      have wider : Extends state.db db := ⟨grown.files, grown.next⟩
      rw [State.attemptPass_of_ok done]
      refine sturdy.withPass rooted' wider
        (fun other unlike => files other (elsewhere other unlike)) ⟨inputs.extend wider, held⟩ ?_
      rintro other _ different ⟨⟩ isOther
      exact different (sturdy.apart other (some thread) output.id isOther (by rw [isSlot]; rfl))
  | error failure db =>
      have failed : (state.passes thread).advance (state.db.planned plan) = .error failure db := by
        rw [stage]
        exact bind_of_error ran
      obtain ⟨files, grown, rooted'⟩ :=
        rooted.of_createTable_error reserved valid fits (merges.symm.trans ran)
      exact sturdy.giveUpPass failed rooted' ⟨grown.files, grown.next⟩
        fun other unlike => files other (elsewhere other unlike)

theorem recordPass {snapshot : Version fmt} {job : CompactionJob fmt} {output : SsTable fmt}
    (sturdy : Sturdy sound state) (stage : state.passes thread = .written snapshot job output) :
    Sturdy sound (state.attemptPass plan thread) := by
  have rooted := sturdy.rooted.planned plan
  have own := sturdy.passes thread
  rw [stage] at own
  have below := held_below sturdy.rooted own.2
  cases ran : recordCompaction output.id job (state.db.planned plan) with
  | ok value db =>
      have done : (state.passes thread).advance (state.db.planned plan) =
          .ok (.recorded snapshot job output) db := by
        rw [stage]
        exact Pass.advance_written ran
      obtain ⟨files, grown, rooted'⟩ := rooted.of_recordCompaction below ran
      have wider : Extends state.db db := ⟨grown.files, grown.next⟩
      rw [State.attemptPass_of_ok done]
      exact sturdy.withPass rooted' wider (fun _ _ => by rw [files]; rfl)
        ⟨own.1.extend wider, own.2.extend wider⟩ fun _ _ _ isId => nomatch isId
  | error failure db =>
      have failed : (state.passes thread).advance (state.db.planned plan) = .error failure db := by
        rw [stage]
        exact bind_of_error ran
      obtain ⟨files, grown, rooted'⟩ := rooted.of_recordCompaction_error below ran
      exact sturdy.giveUpPass failed rooted' ⟨grown.files, grown.next⟩
        fun _ _ => by rw [files]; rfl

theorem installPass {snapshot : Version fmt} {job : CompactionJob fmt} {output : SsTable fmt}
    (sturdy : Sturdy sound state) (stage : state.passes thread = .recorded snapshot job output) :
    Sturdy sound (state.attemptPass plan thread) := by
  have rooted := sturdy.rooted.planned plan
  have own := sturdy.passes thread
  rw [stage] at own
  have owned : ∀ input ∈ job.inputs, input ∈ snapshot.tablesNewestFirst :=
    fun input isInput => (own.1 input isInput).1
  cases ran : installCompaction job output (state.db.planned plan) with
  | ok value mid =>
      have cleaned : removeInputs snapshot job.inputs mid = .ok () mid :=
        removeInputs_eq owned mid
      have done : (state.passes thread).advance (state.db.planned plan) = .ok .idle mid := by
        rw [stage]
        exact Pass.advance_recorded ran cleaned
      have same := (Leaves.installCompaction job output).ok ran
      rw [State.attemptPass_of_ok done]
      exact sturdy.withPass (rooted.of_installCompaction own.2 ran)
        (.of_eq same.files same.memory) (fun _ _ => by rw [same.files]; rfl) trivial
        fun _ _ _ isId => nomatch isId
  | error failure db =>
      have failed : (state.passes thread).advance (state.db.planned plan) = .error failure db := by
        rw [stage]
        exact bind_of_error ran
      have same := (Leaves.installCompaction job output).error ran
      exact sturdy.giveUpPass failed (rooted.of_installCompaction_error ran)
        (.of_eq same.files same.memory) fun _ _ => by rw [same.files]; rfl

/-- **A step of a pass keeps a state sturdy**, whether it succeeds or fails. -/
theorem passStep (sturdy : Sturdy sound state)
    (fits : ∀ snapshot job id, state.passes thread = .allocated snapshot job id →
      Fits state.db.engine.options (mergedEntries state.db.disk.sst job
        (dropTombstones snapshot state.db.engine.options job))) :
    Sturdy sound (state.attemptPass plan thread) := by
  cases stage : state.passes thread with
  | idle => exact sturdy.pickPass stage
  | picked snapshot job => exact sturdy.allocatePass stage
  | allocated snapshot job id => exact sturdy.createPass stage (fits snapshot job id stage)
  | written snapshot job output => exact sturdy.recordPass stage
  | recorded snapshot job output => exact sturdy.installPass stage

end Passes

end Sturdy

/-! ## Whole runs -/

/-- A happening in order: a table that is created fits its format, and a directory that
is opened again has no table file with an id that its counter will hand out, and no
empty key in its log. -/
def Happening.Orderly (Fits : Options → List (Key × Entry) → Prop) :
    Happening → State fmt → Prop
  | .act .flush _, state => ∀ snapshot id, state.flush = .allocated snapshot id →
      Fits state.db.engine.options snapshot
  | .act (.pass thread) _, state =>
      ∀ snapshot job id, state.passes thread = .allocated snapshot job id →
        Fits state.db.engine.options (mergedEntries state.db.disk.sst job
          (dropTombstones snapshot state.db.engine.options job))
  | .act _ _, _ => True
  | .crash options, state => ∀ engine, openWith options state.db.disk = .ok engine →
      (∀ id, state.db.disk.sst id ≠ none → id.toNat < engine.manifest.nextTableId.toNat) ∧
        ∀ pair ∈ engine.memtable.iter, pair.1 ≠ []

/-- Every happening meets a condition in the state it comes in. -/
def AllHappenings (Meets : Happening → State fmt → Prop) : List Happening → State fmt → Prop
  | [], _ => True
  | happening :: rest, state =>
      Meets happening state ∧ ∀ next, happening.step state = some next →
        AllHappenings Meets rest next

theorem Rooted.opened {sound : fmt.Sound Fits} {disk : Disk fmt}
    (whole : ∀ id file, disk.sst id = some file → ∃ handle entries, sound.Holds handle file entries)
    {options : Options} {engine : Engine fmt} (opened : openWith options disk = .ok engine)
    (below : ∀ id, disk.sst id ≠ none → id.toNat < engine.manifest.nextTableId.toNat)
    (keyed : ∀ pair ∈ engine.memtable.iter, pair.1 ≠ []) :
    Rooted sound ⟨disk, engine, []⟩ := by
  obtain ⟨emptyCache, version, loaded, _⟩ := openWith_cases opened
  refine
    { whole := whole
      held := ?_
      below := below
      listed := fun id isListed => below id (files_of_loadTables loaded id isListed)
      coherent := ?_
      keyed := keyed }
  · intro table member
    obtain ⟨file, present, read⟩ := mem_of_openWith opened member
    obtain ⟨handle, entries, holds⟩ := whole _ _ present
    cases (sound.openFile_ok holds).symm.trans read
    exact Held.intro sound present holds
  · dsimp only
    rw [emptyCache]
    exact sound.coherent_empty _ _

theorem Rooted.start {sound : fmt.Sound Fits} {db : Db fmt} (rooted : Rooted sound db) :
    Sturdy sound (State.start db) where
  rooted := rooted
  flush := trivial
  passes _ := trivial
  apart := by
    rw [State.slot_start]
    exact fun _ _ _ isId => nomatch isId

theorem rooted_new (sound : fmt.Sound Fits) (options : Options) :
    Rooted sound (Db.new fmt options) := by
  have whole : ∀ id file, (Disk.empty fmt).sst id = some file →
      ∃ handle entries, sound.Holds handle file entries := fun _ _ present => nomatch present
  exact Rooted.opened whole (openWith_empty fmt options) (fun _ isUsed => absurd rfl isUsed)
    (List.forall_mem_nil _)

/-- **Whatever happens keeps a state sturdy.** -/
theorem Sturdy.step {sound : fmt.Sound Fits} {state next : State fmt} {happening : Happening}
    (sturdy : Sturdy sound state) (orderly : happening.Orderly Fits state)
    (stepped : happening.step state = some next) : Sturdy sound next := by
  cases happening with
  | crash options =>
      rw [Happening.step] at stepped
      split at stepped
      · rename_i engine opened
        cases stepped
        obtain ⟨below, keyed⟩ := orderly engine opened
        exact (Rooted.opened sturdy.rooted.whole opened below keyed).start
      · cases stepped
  | act event plan =>
      cases stepped
      cases event with
      | put key value => exact sturdy.write plan fun _ isWrite => (Event.operation_valid isWrite).2
      | delete key => exact sturdy.write plan fun _ isWrite => (Event.operation_valid isWrite).2
      | get key => exact sturdy.read key
      | flush => exact sturdy.flushStep orderly
      | pass thread => exact sturdy.passStep orderly

/-- **Whatever happens, a state stays sturdy.** -/
theorem Sturdy.survive {sound : fmt.Sound Fits} {happenings : List Happening}
    {state final : State fmt} {contents contents' : Contents fmt} (sturdy : Sturdy sound state)
    (orderly : AllHappenings (Happening.Orderly Fits) happenings state)
    (survived : survive happenings (state, contents) = some (final, contents')) :
    Sturdy sound final := by
  induction happenings generalizing state contents with
  | nil =>
      cases survived
      exact sturdy
  | cons happening rest ih =>
      rw [LsmStore.survive] at survived
      cases stepped : happening.step state with
      | none =>
          rw [stepped] at survived
          cases survived
      | some next =>
          rw [stepped] at survived
          exact ih (sturdy.step orderly.1 stepped) (orderly.2 next stepped) survived

end LsmStore
