import LsmStore.Effects
import LsmStore.Failures
import LsmStore.UnderWay

/-!
# Failing steps and crashes

Every step of a flush or of a pass may fail, and the process may stop between any
two steps and be started again on the directory it left.  A failed step ends its
flush or pass; whatever it wrote stays.

Asked of the failures is only that an append to the manifest which fails has
written nothing (`Happening.Clean`).  A process that stops in the middle of the
appends of one step is a step whose next append fails, followed by a crash.

The order of a table's life keeps the directory safe: its id is allocated, durably,
before its file is written, and its file is complete before it is recorded (`Slot`).
`Guarded` says how directory, manifest and slots fit together at any time, and what
each action keeps of it.
-/

set_option autoImplicit false

namespace LsmStore

open Foundation

variable {fmt : TableFormat}

/-! ## Steps that may fail -/

/-- What can happen to an engine: the next step of one of its threads, with a plan
of verdicts on its file operations, or the end of the process, after which the
directory is opened again. -/
inductive Happening where
  | act (event : Event) (plan : List Verdict)
  | crash (options : Options)

/-- The database with the verdicts on the coming file operations. -/
def Db.planned (db : Db fmt) (plan : List Verdict) : Db fmt := { db with faults := plan }

namespace State

/-- A write waits for the user's flush to finish; one that is refused or that
fails leaves what it did until then. -/
def attemptWrite (state : State fmt) (plan : List Verdict) (operation : Option Operation) :
    State fmt :=
  match state.flush, operation with
  | .idle, some operation =>
      match logAndApply operation (state.db.planned plan) with
      | .ok () db => { state with db := db.planned [] }
      | .error _ db => { state with db := db.planned [] }
  | _, _ => state

/-- A read may change the cache and the counters, also when it fails. -/
def attemptRead (state : State fmt) (key : Key) : State fmt :=
  match get key state.db with
  | .ok _ db => { state with db := db }
  | .error _ db => { state with db := db }

/-- A flush whose step failed is given up. -/
def attemptFlush (state : State fmt) (plan : List Verdict) : State fmt :=
  match state.flush.advance (state.db.planned plan) with
  | .ok flush db => { state with db := db.planned [], flush := flush }
  | .error _ db => { state with db := db.planned [], flush := .idle }

/-- A pass whose step failed is given up. -/
def attemptPass (state : State fmt) (plan : List Verdict) (thread : Thread) : State fmt :=
  match (state.passes thread).advance (state.db.planned plan) with
  | .ok pass db =>
      { state with db := db.planned [], passes := Function.update state.passes thread pass }
  | .error _ db =>
      { state with db := db.planned [], passes := Function.update state.passes thread .idle }

end State

/-- The state after an event whose file operations follow a plan. -/
def Event.attempt (event : Event) (plan : List Verdict) (state : State fmt) : State fmt :=
  match event with
  | .put _ _ | .delete _ => state.attemptWrite plan event.operation
  | .get key => state.attemptRead key
  | .flush => state.attemptFlush plan
  | .pass thread => state.attemptPass plan thread

/-- The state after a happening; none if the directory cannot be opened again. -/
def Happening.step : Happening → State fmt → Option (State fmt)
  | .act event plan, state => some (event.attempt plan state)
  | .crash options, state =>
      match openWith options state.db.disk with
      | .ok engine => some (State.start ⟨state.db.disk, engine, []⟩)
      | .error _ => none

/-- Whether the next step of a flush appends to the manifest. -/
def Flush.appends : Flush fmt → Bool
  | .frozen _ | .written _ _ => true
  | _ => false

/-- Whether the next step of a pass appends to the manifest. -/
def Pass.appends : Pass fmt → Bool
  | .picked _ _ | .written _ _ _ => true
  | _ => false

/-- A failing append to the manifest writes nothing. -/
def Happening.Clean : Happening → State fmt → Prop
  | .act .flush plan, state => state.flush.appends = true → ∀ verdict ∈ plan, verdict.Clean
  | .act (.pass thread) plan, state =>
      (state.passes thread).appends = true → ∀ verdict ∈ plan, verdict.Clean
  | _, _ => True

/-- The id of the table whose file an event creates. -/
def Event.creates (event : Event) (state : State fmt) : Option UInt64 :=
  match event with
  | .flush =>
      match state.flush with
      | .allocated _ tableId => some tableId
      | _ => none
  | .pass thread =>
      match state.passes thread with
      | .allocated _ _ outputId => some outputId
      | _ => none
  | _ => none

/-- The files as their creation left them. -/
abbrev Contents (fmt : TableFormat) : Type := UInt64 → Option fmt.File

/-- The file under an id, if there is one now, is remembered. -/
def Contents.noting (contents : Contents fmt) (files : UInt64 → Option fmt.File) (id : UInt64) :
    Contents fmt :=
  match files id with
  | some file => Function.update contents id (some file)
  | none => contents

theorem Contents.noting_of_none {contents : Contents fmt} {files : UInt64 → Option fmt.File}
    {id : UInt64} (absent : files id = none) : contents.noting files id = contents := by
  rw [Contents.noting, absent]

theorem Contents.noting_withTable (contents : Contents fmt) (disk : Disk fmt) (id : UInt64)
    (file : fmt.File) :
    contents.noting (disk.withTable id file).sst id = Function.update contents id (some file) := by
  simp [Contents.noting, Disk.withTable]

/-- A file that an event has created is remembered. -/
def Happening.remember (happening : Happening) (before after : State fmt)
    (contents : Contents fmt) : Contents fmt :=
  match happening with
  | .act event _ =>
      match event.creates before with
      | some id => contents.noting after.db.disk.sst id
      | none => contents
  | .crash _ => contents

/-- The state after a list of happenings, with the files that were created. -/
def survive : List Happening → State fmt × Contents fmt → Option (State fmt × Contents fmt)
  | [], reached => some reached
  | happening :: rest, (state, contents) =>
      match happening.step state with
      | none => none
      | some next => survive rest (next, happening.remember state next contents)

/-- No append to the manifest fails after it has written something. -/
def AllClean : List Happening → State fmt → Prop
  | [], _ => True
  | happening :: rest, state =>
      happening.Clean state ∧
        match happening.step state with
        | none => True
        | some next => AllClean rest next

instance decidableHappeningClean : ∀ (happening : Happening) (state : State fmt),
    Decidable (happening.Clean state)
  | .act .flush plan, state => inferInstanceAs
      (Decidable (state.flush.appends = true → ∀ verdict ∈ plan, verdict.Clean))
  | .act (.pass thread) plan, state => inferInstanceAs
      (Decidable ((state.passes thread).appends = true → ∀ verdict ∈ plan, verdict.Clean))
  | .act (.put _ _) _, _ | .act (.delete _) _, _ | .act (.get _) _, _ | .crash _, _ =>
      isTrue trivial

instance decidableAllClean : ∀ (happenings : List Happening) (state : State fmt),
    Decidable (AllClean happenings state)
  | [], _ => isTrue trivial
  | happening :: rest, state =>
      have : Decidable (match happening.step state with
          | none => True
          | some next => AllClean rest next) :=
        match happening.step state with
        | none => isTrue trivial
        | some next => decidableAllClean rest next
      inferInstanceAs (Decidable (happening.Clean state ∧ _))

/-! ## The life of a table -/

/-- How far the table of a flush or of a pass has come before it is recorded. -/
inductive Slot where
  | empty
  | blank (id : UInt64)
  | filled (id : UInt64)

def Slot.id : Slot → Option UInt64
  | .empty => none
  | .blank id | .filled id => some id

def Flush.slot : Flush fmt → Slot
  | .allocated _ tableId => .blank tableId
  | .written _ table => .filled table.id
  | _ => .empty

def Pass.slot : Pass fmt → Slot
  | .allocated _ _ outputId => .blank outputId
  | .written _ _ output => .filled output.id
  | _ => .empty

/-- The slots of the flush and of the two threads. -/
def State.slot (state : State fmt) : Owner → Slot
  | none => state.flush.slot
  | some thread => (state.passes thread).slot

theorem State.slot_flush (state : State fmt) (db : Db fmt) (flush : Flush fmt) :
    State.slot { state with db := db, flush := flush } =
      Function.update state.slot none flush.slot := by
  funext owner
  cases owner with
  | none => rw [Function.update_self]; rfl
  | some thread => rw [Function.update_of_ne (Option.some_ne_none thread)]; rfl

theorem State.slot_pass (state : State fmt) (db : Db fmt) (thread : Thread) (pass : Pass fmt) :
    State.slot { state with db := db, passes := Function.update state.passes thread pass } =
      Function.update state.slot (some thread) pass.slot := by
  funext owner
  cases owner with
  | none => rw [Function.update_of_ne (Option.some_ne_none thread).symm]; rfl
  | some other =>
      by_cases same : other = thread
      · subst same
        simp only [State.slot, Function.update_self]
      · rw [Function.update_of_ne (by simpa using same)]
        simp only [State.slot, Function.update_of_ne same]

/-- The file of a table is there, as its creation left it. -/
def Stored (files : UInt64 → Option fmt.File) (contents : Contents fmt) (id : UInt64) : Prop :=
  ∃ file, files id = some file ∧ contents id = some file

/-- The ids that a manifest lists. -/
def Manifest.ids (manifest : Manifest) : List UInt64 := manifest.tables.map (·.1)

/-- What holds of a slot: its id is allocated and not recorded, and its file is
there once the slot is filled, and not before. -/
def SlotOk (files : UInt64 → Option fmt.File) (contents : Contents fmt) (durable : Manifest) :
    Slot → Prop
  | .empty => True
  | .blank id =>
      id.toNat < durable.nextTableId.toNat ∧ id ∉ durable.ids ∧ files id = none
  | .filled id =>
      id.toNat < durable.nextTableId.toNat ∧ id ∉ durable.ids ∧ Stored files contents id

theorem SlotOk.below {files : UInt64 → Option fmt.File} {contents : Contents fmt}
    {durable : Manifest} {slot : Slot} (ok : SlotOk files contents durable slot) {id : UInt64}
    (isId : slot.id = some id) : id.toNat < durable.nextTableId.toNat ∧ id ∉ durable.ids := by
  cases slot with
  | empty => cases isId
  | blank other => cases isId; exact ⟨ok.1, ok.2.1⟩
  | filled other => cases isId; exact ⟨ok.1, ok.2.1⟩

/-- A change that leaves the file of the slot's id alone, lists nothing more than
other ids and allocates more ids keeps the slot as it is. -/
theorem SlotOk.frame {files files' : UInt64 → Option fmt.File} {contents contents' : Contents fmt}
    {durable durable' : Manifest} {slot : Slot} (ok : SlotOk files contents durable slot)
    (next : durable.nextTableId.toNat ≤ durable'.nextTableId.toNat)
    (own : ∀ id, slot.id = some id → files' id = files id ∧ contents' id = contents id ∧
      (id ∉ durable.ids → id ∉ durable'.ids)) :
    SlotOk files' contents' durable' slot := by
  cases slot with
  | empty => trivial
  | blank id =>
      obtain ⟨sameFile, _, unlisted⟩ := own id rfl
      exact ⟨lt_of_lt_of_le ok.1 next, unlisted ok.2.1, sameFile.trans ok.2.2⟩
  | filled id =>
      obtain ⟨sameFile, sameContents, unlisted⟩ := own id rfl
      obtain ⟨file, present, remembered⟩ := ok.2.2
      exact ⟨lt_of_lt_of_le ok.1 next, unlisted ok.2.1, file, sameFile.trans present,
        sameContents.trans remembered⟩

/-- How the directory, the manifest in memory, the created files and the slots fit
together, when the manifest file replays to `durable`. -/
structure Guarded (disk : Disk fmt) (memory : Manifest) (contents : Contents fmt)
    (slots : Owner → Slot) (durable : Manifest) : Prop where
  recorded : ∃ records, disk.manifest = manifestLog records ∧
    Manifest.replayAll records .initial = .ok durable
  tables : memory.tables = durable.tables
  behind : durable.nextTableId.toNat ≤ memory.nextTableId.toNat
  distinct : durable.ids.Nodup
  stored : ∀ id ∈ durable.ids, Stored disk.sst contents id
  used : ∀ id, disk.sst id ≠ none → id.toNat < durable.nextTableId.toNat
  slotted : ∀ owner, SlotOk disk.sst contents durable (slots owner)
  apart : ∀ owner owner' id, (slots owner).id = some id → (slots owner').id = some id →
    owner = owner'

namespace Guarded

variable {disk : Disk fmt} {memory : Manifest} {contents : Contents fmt} {slots : Owner → Slot}
  {durable : Manifest}

/-- The other owners' slots, when one of them changes. -/
theorem apart_update {owner : Owner} {slot : Slot}
    (apart : ∀ owner owner' id, (slots owner).id = some id → (slots owner').id = some id →
      owner = owner')
    (new : ∀ other id, other ≠ owner → slot.id = some id → (slots other).id ≠ some id) :
    ∀ first second id, (Function.update slots owner slot first).id = some id →
      (Function.update slots owner slot second).id = some id → first = second := by
  intro first second id isFirst isSecond
  by_cases firstOwns : first = owner <;> by_cases secondOwns : second = owner
  · rw [firstOwns, secondOwns]
  · rw [firstOwns, Function.update_self] at isFirst
    rw [Function.update_of_ne secondOwns] at isSecond
    exact absurd isSecond (new second id secondOwns isFirst)
  · rw [Function.update_of_ne firstOwns] at isFirst
    rw [secondOwns, Function.update_self] at isSecond
    exact absurd isFirst (new first id firstOwns isSecond)
  · rw [Function.update_of_ne firstOwns] at isFirst
    rw [Function.update_of_ne secondOwns] at isSecond
    exact apart first second id isFirst isSecond

theorem slotted_update {files : UInt64 → Option fmt.File} {contents' : Contents fmt}
    {durable' : Manifest} {owner : Owner} {slot : Slot}
    (others : ∀ other, other ≠ owner → SlotOk files contents' durable' (slots other))
    (new : SlotOk files contents' durable' slot) (other : Owner) :
    SlotOk files contents' durable' (Function.update slots owner slot other) := by
  by_cases same : other = owner
  · rw [same, Function.update_self]
    exact new
  · rw [Function.update_of_ne same]
    exact others other same

/-- A change that touches neither the manifest nor the table files. -/
theorem frame (guarded : Guarded disk memory contents slots durable) {disk' : Disk fmt}
    (manifest : disk'.manifest = disk.manifest) (files : disk'.sst = disk.sst) :
    Guarded disk' memory contents slots durable := by
  obtain ⟨recorded, tables, behind, distinct, stored, used, slotted, apart⟩ := guarded
  rw [← manifest] at recorded
  rw [← files] at stored used slotted
  exact ⟨recorded, tables, behind, distinct, stored, used, slotted, apart⟩

/-- A flush or a pass is given up, or has no use for its slot any more. -/
theorem release (guarded : Guarded disk memory contents slots durable) (owner : Owner) :
    Guarded disk memory contents (Function.update slots owner .empty) durable :=
  { guarded with
    slotted := slotted_update (fun other _ => guarded.slotted other) trivial
    apart := apart_update guarded.apart fun _ _ _ isId => nomatch isId }

theorem recorded_append (guarded : Guarded disk memory contents slots durable)
    {more : List ManifestRecord} {durable' : Manifest}
    (replayed : Manifest.replayAll more durable = .ok durable') :
    ∃ records, disk.manifest ++ manifestLog more = manifestLog records ∧
      Manifest.replayAll records .initial = .ok durable' := by
  obtain ⟨records, isLog, earlier⟩ := guarded.recorded
  refine ⟨records ++ more, ?_, ?_⟩
  · rw [isLog, manifestLog_append]
  · rw [Manifest.replayAll_append, earlier]
    exact replayed

/-- An id that was never allocated durably is neither listed nor used. -/
theorem fresh (guarded : Guarded disk memory contents slots durable) :
    memory.nextTableId ∉ durable.ids ∧ disk.sst memory.nextTableId = none := by
  have unused : disk.sst memory.nextTableId = none := by
    by_contra isUsed
    have below := guarded.used _ isUsed
    have behind := guarded.behind
    omega
  refine ⟨?_, unused⟩
  intro listed
  obtain ⟨file, present, _⟩ := guarded.stored _ listed
  rw [unused] at present
  cases present

/-- An id is taken, but not durably. -/
theorem allocate_failed (guarded : Guarded disk memory contents slots durable)
    (room : memory.nextTableId.toNat + 1 ≤ u64Max) :
    Guarded disk memory.allocated contents slots durable := by
  refine { guarded with behind := ?_ }
  have behind := guarded.behind
  rw [Manifest.allocated, toNat_succ room]
  omega

/-- An id is allocated. -/
theorem allocate (guarded : Guarded disk memory contents slots durable)
    (room : memory.nextTableId.toNat + 1 ≤ u64Max) (owner : Owner) :
    Guarded
      { disk with
        manifest := disk.manifest ++
          (ManifestRecord.setNextTableId (memory.nextTableId + 1)).encode }
      memory.allocated contents (Function.update slots owner (.blank memory.nextTableId))
      { durable with nextTableId := memory.nextTableId + 1 } := by
  obtain ⟨unlisted, unused⟩ := guarded.fresh
  have behind := guarded.behind
  have next : (memory.nextTableId + 1).toNat = memory.nextTableId.toNat + 1 := toNat_succ room
  have record : (ManifestRecord.setNextTableId (memory.nextTableId + 1)).encode =
      manifestLog [.setNextTableId (memory.nextTableId + 1)] := by simp [manifestLog]
  refine
    { recorded := ?_
      tables := guarded.tables
      behind := le_refl _
      distinct := guarded.distinct
      stored := guarded.stored
      used := ?_
      slotted := slotted_update ?_ ?_
      apart := apart_update guarded.apart ?_ }
  · rw [record]
    exact guarded.recorded_append rfl
  · intro id isUsed
    have below := guarded.used id isUsed
    rw [next]
    omega
  · intro other _
    refine (guarded.slotted other).frame ?_ fun id _ => ⟨rfl, rfl, fun unlisted => unlisted⟩
    rw [next]
    omega
  · refine ⟨?_, unlisted, unused⟩
    rw [next]
    exact Nat.lt_succ_self _
  · intro other id _ isId isOther
    cases isId
    have below := ((guarded.slotted other).below isOther).1
    omega

/-- A file is created under an allocated id. -/
theorem create (guarded : Guarded disk memory contents slots durable) {owner : Owner} {id : UInt64}
    (isSlot : slots owner = .blank id) (file : fmt.File) :
    Guarded (disk.withTable id file) memory (Function.update contents id (some file))
      (Function.update slots owner (.filled id)) durable := by
  have ok := guarded.slotted owner
  rw [isSlot] at ok
  obtain ⟨below, unlisted, _⟩ := ok
  have files : ∀ other, other ≠ id →
      (disk.withTable id file).sst other = disk.sst other ∧
        Function.update contents id (some file) other = contents other :=
    fun other different => ⟨Function.update_of_ne different _ _, Function.update_of_ne different _ _⟩
  have new : ∀ other otherId, other ≠ owner → (Slot.filled id).id = some otherId →
      (slots other).id ≠ some otherId := by
    intro other otherId different isId isOther
    cases isId
    exact different (guarded.apart other owner id isOther (by rw [isSlot]; rfl))
  refine
    { guarded with
      stored := ?_
      used := ?_
      slotted := slotted_update ?_ ?_
      apart := apart_update guarded.apart new }
  · intro other listed
    have different : other ≠ id := fun same => unlisted (same ▸ listed)
    obtain ⟨old, present, remembered⟩ := guarded.stored other listed
    exact ⟨old, (files other different).1.trans present, (files other different).2.trans remembered⟩
  · intro other isUsed
    by_cases same : other = id
    · rw [same]
      exact below
    · rw [(files other same).1] at isUsed
      exact guarded.used other isUsed
  · intro other different
    refine (guarded.slotted other).frame (le_refl _) ?_
    intro otherId isOther
    have apart : otherId ≠ id := fun same =>
      new other otherId different (by rw [same]; rfl) isOther
    exact ⟨(files otherId apart).1, (files otherId apart).2, fun unlisted => unlisted⟩
  · exact ⟨below, unlisted, file, Function.update_self .., Function.update_self ..⟩

/-- A complete table is recorded. -/
theorem add (guarded : Guarded disk memory contents slots durable) {owner : Owner} {id : UInt64}
    (isSlot : slots owner = .filled id) (level : UInt32) :
    Guarded
      { disk with manifest := disk.manifest ++ (ManifestRecord.addTable id level).encode }
      (memory.added id level) contents (Function.update slots owner .empty)
      (durable.added id level) := by
  have ok := guarded.slotted owner
  rw [isSlot] at ok
  obtain ⟨_, unlisted, stored⟩ := ok
  have ids : (durable.added id level).ids = durable.ids ++ [id] := by
    simp [Manifest.ids, Manifest.added]
  have record : (ManifestRecord.addTable id level).encode = manifestLog [.addTable id level] := by
    simp [manifestLog]
  refine
    { guarded with
      recorded := ?_
      tables := congrArg (· ++ [(id, level)]) guarded.tables
      distinct := ?_
      stored := ?_
      slotted := slotted_update ?_ trivial
      apart := apart_update guarded.apart fun _ _ _ isId => by cases isId }
  · rw [record]
    refine guarded.recorded_append (Manifest.replayAll_add ?_ level [])
    by_contra listed
    exact unlisted (Manifest.lists_iff.mp (by simpa using listed))
  · rw [ids]
    exact List.nodup_append_comm.mp (List.nodup_cons.mpr ⟨unlisted, guarded.distinct⟩)
  · intro other listed
    rw [ids] at listed
    rcases List.mem_append.mp listed with old | new
    · exact guarded.stored other old
    · rw [List.mem_singleton.mp new]
      exact stored
  · intro other different
    refine (guarded.slotted other).frame (le_refl _) ?_
    intro otherId isOther
    refine ⟨rfl, rfl, fun stillUnlisted => ?_⟩
    rw [ids]
    intro listed
    rcases List.mem_append.mp listed with old | new
    · exact stillUnlisted old
    · rw [List.mem_singleton.mp new] at isOther
      exact different (guarded.apart other owner id isOther (by rw [isSlot]; rfl))

/-- Tables are removed from the manifest. -/
theorem remove (guarded : Guarded disk memory contents slots durable) (gone : List UInt64) :
    Guarded
      { disk with manifest := disk.manifest ++ manifestLog (gone.map .removeTable) }
      (memory.removed gone) contents slots (durable.removed gone) := by
  have fewer : ∀ id, id ∈ (durable.removed gone).ids → id ∈ durable.ids := by
    intro id listed
    obtain ⟨place, member, same⟩ := List.mem_map.mp listed
    exact List.mem_map.mpr ⟨place, List.mem_of_mem_filter member, same⟩
  exact
    { guarded with
      recorded := guarded.recorded_append (Manifest.replayAll_removes gone durable)
      tables := by simp only [Manifest.removed, guarded.tables]
      distinct := guarded.distinct.sublist (List.filter_sublist.map _)
      stored := fun id listed => guarded.stored id (fewer id listed)
      slotted := fun owner => (guarded.slotted owner).frame (le_refl _) fun id _ =>
        ⟨rfl, rfl, fun unlisted listed => unlisted (fewer id listed)⟩ }

end Guarded

/-! ## What the actions keep -/

namespace Guarded

variable {db db' : Db fmt} {contents : Contents fmt} {slots : Owner → Slot} {durable : Manifest}
  {owner : Owner} {failure : Failure}

theorem of_nextTableId {id : UInt64}
    (guarded : Guarded db.disk db.engine.manifest contents slots durable)
    (done : nextTableId db = .ok id db') (owner : Owner) :
    ∃ durable', Guarded db'.disk db'.engine.manifest contents
      (Function.update slots owner (.blank id)) durable' := by
  obtain ⟨rfl, room, faults, rfl⟩ := nextTableId_of_ok done
  exact ⟨_, guarded.allocate room owner⟩

theorem of_nextTableId_error (guarded : Guarded db.disk db.engine.manifest contents slots durable)
    (clean : ∀ verdict ∈ db.faults, verdict.Clean)
    (failed : nextTableId db = .error failure db') :
    Guarded db'.disk db'.engine.manifest contents slots durable := by
  rcases nextTableId_of_error failed with ⟨_, _, rfl⟩ | ⟨_, room, progress, faults, plan, rfl⟩
  · exact guarded
  · obtain rfl : progress = 0 := clean (.fail progress) (by rw [plan]; exact List.mem_cons_self)
    refine (guarded.allocate_failed room).frame ?_ rfl
    simp

theorem of_createTable {id : UInt64} {entries : List (Key × Entry)} {table : SsTable fmt}
    (guarded : Guarded db.disk db.engine.manifest contents slots durable)
    (isSlot : slots owner = .blank id) (done : createTable id entries db = .ok table db') :
    table.id = id ∧ Guarded db'.disk db'.engine.manifest (contents.noting db'.disk.sst id)
      (Function.update slots owner (.filled table.id)) durable := by
  obtain ⟨file, handle, faults, _, rfl, rfl⟩ := createTable_of_ok done
  refine ⟨rfl, ?_⟩
  dsimp only
  rw [Contents.noting_withTable]
  exact guarded.create isSlot file

theorem of_createTable_error {id : UInt64} {entries : List (Key × Entry)}
    (guarded : Guarded db.disk db.engine.manifest contents slots durable)
    (isSlot : slots owner = .blank id) (failed : createTable id entries db = .error failure db') :
    Guarded db'.disk db'.engine.manifest (contents.noting db'.disk.sst id)
      (Function.update slots owner .empty) durable := by
  have ok := guarded.slotted owner
  rw [isSlot] at ok
  have unchanged : contents.noting db.disk.sst id = contents := Contents.noting_of_none ok.2.2
  have released := guarded.release owner
  rcases createTable_of_error failed with
    ⟨_, rfl⟩ | ⟨file, handle, _, _, disk, faults, rfl, rfl | rfl | rfl⟩
  · rw [unchanged]
    exact released
  · dsimp only
    rw [unchanged]
    exact released
  · dsimp only
    rw [unchanged]
    exact released.frame rfl rfl
  · dsimp only
    rw [Contents.noting_withTable, ← Function.update_idem (.filled id) .empty slots]
    exact (guarded.create isSlot file).release owner

theorem of_addTable {id : UInt64} {level : UInt32} {value : Unit}
    (guarded : Guarded db.disk db.engine.manifest contents slots durable)
    (isSlot : slots owner = .filled id) (done : addTable id level db = .ok value db') :
    Guarded db'.disk db'.engine.manifest contents (Function.update slots owner .empty)
      (durable.added id level) := by
  obtain ⟨_, faults, rfl⟩ := addTable_of_ok done
  exact guarded.add isSlot level

theorem of_addTable_error {id : UInt64} {level : UInt32}
    (guarded : Guarded db.disk db.engine.manifest contents slots durable)
    (clean : ∀ verdict ∈ db.faults, verdict.Clean)
    (failed : addTable id level db = .error failure db') :
    Guarded db'.disk db'.engine.manifest contents slots durable := by
  rcases addTable_of_error failed with ⟨_, _, rfl⟩ | ⟨_, progress, faults, plan, rfl⟩
  · exact guarded
  · obtain rfl : progress = 0 := clean (.fail progress) (by rw [plan]; exact List.mem_cons_self)
    refine guarded.frame ?_ rfl
    simp

theorem of_recordCompaction {id : UInt64} {job : CompactionJob fmt} {value : Unit}
    (guarded : Guarded db.disk db.engine.manifest contents slots durable)
    (isSlot : slots owner = .filled id) (done : recordCompaction id job db = .ok value db') :
    ∃ durable', Guarded db'.disk db'.engine.manifest contents
      (Function.update slots owner .empty) durable' := by
  obtain ⟨_, mid, added, removed⟩ := bind_eq_ok.mp done
  obtain ⟨faults, rfl⟩ := removeTables_of_ok removed
  exact ⟨_, (guarded.of_addTable isSlot added).remove _⟩

theorem of_recordCompaction_error {id : UInt64} {job : CompactionJob fmt}
    (guarded : Guarded db.disk db.engine.manifest contents slots durable)
    (clean : ∀ verdict ∈ db.faults, verdict.Clean) (isSlot : slots owner = .filled id)
    (failed : recordCompaction id job db = .error failure db') :
    ∃ durable', Guarded db'.disk db'.engine.manifest contents
      (Function.update slots owner .empty) durable' := by
  rcases bind_eq_error.mp failed with failed | ⟨_, mid, added, failed⟩
  · exact ⟨_, (guarded.of_addTable_error clean failed).release owner⟩
  · obtain ⟨_, gone, last, rest, progress, faults, _, planned, rfl⟩ := removeTables_of_error failed
    obtain rfl : progress = 0 := clean (.fail progress) (addTable_faults added planned)
    refine ⟨_, ((guarded.of_addTable isSlot added).remove gone).frame ?_ rfl⟩
    simp

end Guarded

/-! ## Actions that leave tables and manifest alone -/

/-- The table files and the manifest, in its file and in memory, are the same. -/
structure SameTables (db db' : Db fmt) : Prop where
  bytes : db'.disk.manifest = db.disk.manifest
  files : db'.disk.sst = db.disk.sst
  memory : db'.engine.manifest = db.engine.manifest

theorem SameTables.trans {db db' db'' : Db fmt} (first : SameTables db db')
    (second : SameTables db' db'') : SameTables db db'' :=
  ⟨second.bytes.trans first.bytes, second.files.trans first.files,
    second.memory.trans first.memory⟩

/-- However it ends, the action leaves tables and manifest alone. -/
structure Leaves {α : Type} (action : Action fmt α) : Prop where
  ok : ∀ {db db' value}, action db = .ok value db' → SameTables db db'
  error : ∀ {db db' failure}, action db = .error failure db' → SameTables db db'

namespace Leaves

theorem bind {α β : Type} {first : Action fmt α} {next : α → Action fmt β} (leaves : Leaves first)
    (then_ : ∀ value, Leaves (next value)) : Leaves (first >>= next) where
  ok done := by
    obtain ⟨value, mid, firstDone, nextDone⟩ := bind_eq_ok.mp done
    exact (leaves.ok firstDone).trans ((then_ value).ok nextDone)
  error failed := by
    rcases bind_eq_error.mp failed with failed | ⟨value, mid, firstDone, failed⟩
    · exact leaves.error failed
    · exact (leaves.ok firstDone).trans ((then_ value).error failed)

theorem pure {α : Type} (value : α) : Leaves (Pure.pure value : Action fmt α) where
  ok done := by cases done; exact ⟨rfl, rfl, rfl⟩
  error failed := nomatch failed

theorem throw {α : Type} (failure : Failure) : Leaves (MonadExcept.throw failure : Action fmt α) where
  ok done := nomatch done
  error failed := by cases failed; exact ⟨rfl, rfl, rfl⟩

theorem current : Leaves (current : Action fmt (Db fmt)) where
  ok done := by cases done; exact ⟨rfl, rfl, rfl⟩
  error failed := nomatch failed

theorem walSync : Leaves (walSync : Action fmt Unit) where
  ok done := by
    obtain ⟨faults, rfl⟩ := walSync_of_ok done
    exact ⟨rfl, rfl, rfl⟩
  error failed := by
    obtain ⟨_, faults, rfl⟩ := walSync_of_error failed
    exact ⟨rfl, rfl, rfl⟩

theorem walTruncate : Leaves (walTruncate : Action fmt Unit) where
  ok done := by
    obtain ⟨faults, rfl⟩ := walTruncate_of_ok done
    exact ⟨rfl, rfl, rfl⟩
  error failed := by
    obtain ⟨_, wal, faults, _, rfl⟩ := walTruncate_of_error failed
    exact ⟨rfl, rfl, rfl⟩

theorem walAppend (operation : Operation) : Leaves (walAppend operation : Action fmt Unit) where
  ok done := by
    obtain ⟨_, faults, rfl⟩ := walAppend_of_ok done
    exact ⟨rfl, rfl, rfl⟩
  error failed := by
    rcases walAppend_of_error failed with ⟨_, rfl⟩ | ⟨_, _, progress, faults, _, rfl⟩
    · exact ⟨rfl, rfl, rfl⟩
    · exact ⟨rfl, rfl, rfl⟩

theorem applyOperation (operation : Operation) :
    Leaves (applyOperation operation : Action fmt Unit) where
  ok done := by cases done; exact ⟨rfl, rfl, rfl⟩
  error failed := nomatch failed

theorem freeze : Leaves (freeze : Action fmt (List (Key × Entry))) where
  ok done := by cases done; exact ⟨rfl, rfl, rfl⟩
  error failed := nomatch failed

theorem clearImmutable : Leaves (clearImmutable : Action fmt Unit) where
  ok done := by cases done; exact ⟨rfl, rfl, rfl⟩
  error failed := nomatch failed

theorem pushFront (table : SsTable fmt) : Leaves (pushFront table) where
  ok done := by
    unfold LsmStore.pushFront at done
    split at done <;> cases done
    exact ⟨rfl, rfl, rfl⟩
  error failed := by
    unfold LsmStore.pushFront at failed
    split at failed <;> cases failed
    exact ⟨rfl, rfl, rfl⟩

theorem installCompaction (job : CompactionJob fmt) (output : SsTable fmt) :
    Leaves (installCompaction job output) where
  ok done := by
    unfold LsmStore.installCompaction at done
    split at done <;> cases done
    exact ⟨rfl, rfl, rfl⟩
  error failed := by
    unfold LsmStore.installCompaction at failed
    split at failed <;> cases failed
    exact ⟨rfl, rfl, rfl⟩

theorem logAndApply (operation : Operation) : Leaves (logAndApply operation : Action fmt Unit) :=
  (walAppend operation).bind fun _ => walSync.bind fun _ => applyOperation operation

theorem get (key : Key) : Leaves (get key : Action fmt (Option Bytes)) where
  ok := by
    intro db db' value done
    have noted := (noted_get key db).ok done
    exact ⟨by rw [noted.disk], by rw [noted.disk], noted.manifest⟩
  error := by
    intro db db' failure failed
    have noted := (noted_get key db).error failed
    exact ⟨by rw [noted.disk], by rw [noted.disk], noted.manifest⟩

/-- Cleaning up removes no file of a table that the snapshot owns. -/
theorem removeInputs {snapshot : Version fmt} {inputs : List (SsTable fmt)}
    (owned : ∀ input ∈ inputs, input ∈ snapshot.tablesNewestFirst) :
    Leaves (removeInputs snapshot inputs) where
  ok done := by
    rw [removeInputs_eq owned] at done
    cases done
    exact ⟨rfl, rfl, rfl⟩
  error failed := by
    rw [removeInputs_eq owned] at failed
    cases failed

end Leaves

end LsmStore
