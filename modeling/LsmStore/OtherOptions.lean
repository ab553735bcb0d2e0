import LsmStore.ByteTables
import LsmStore.LevelIndex
import LsmStore.Shadow

/-!
# Reopening with other options

A database may be opened with another number of levels than it was written with.  A table
whose recorded level does not exist any more goes into the last one, so tables of several
levels come to lie in one list, which is then ordered by smallest key, or in level 0 by
the order of the manifest.

A reopening changes no read if of any two tables with common keys the newer one still comes
first (`Db.OpensInOrder`); the levels below level 0 then stay disjoint, and everything that
holds of a database opened with the options it was written with holds on
(`Backed.reopenWith`).  The manifest keeps the levels of before, so such a database is
consistent only up to them: its shadow lists the levels that the tables really lie in.

Without the condition an overwritten value comes back (`shrunk_database_loses_write`): a
compaction enters its output into the manifest behind newer tables of level 0.
-/

set_option autoImplicit false

namespace LsmStore

open Foundation

variable {fmt : TableFormat} {Fits : Options → List (Key × Entry) → Prop}

/-! ## The order that opening gives -/

/-- Opening puts the first table in front of the second: into a smaller level, or both into
level 0, where it was recorded later. -/
def LandsAhead (maxLevels : Nat) (listed : List (UInt64 × UInt32)) (newer older : SsTable fmt) :
    Prop :=
  ∃ level level', (newer.id, level) ∈ listed ∧ (older.id, level') ∈ listed ∧
    (min level.toNat (maxLevels - 1) < min level'.toNat (maxLevels - 1) ∨
      min level.toNat (maxLevels - 1) = 0 ∧ min level'.toNat (maxLevels - 1) = 0 ∧
        [(older.id, level'), (newer.id, level)].Sublist listed)

/-- Of any two tables whose ranges meet, the newer one comes first after opening. -/
def Db.OpensInOrder (maxLevels : Nat) (db : Db fmt) : Prop :=
  db.engine.version.tablesNewestFirst.Pairwise fun newer older =>
    RangesApart newer older ∨ LandsAhead maxLevels db.engine.manifest.tables newer older

section Landing

variable {maxLevels : Nat} {listed : List (UInt64 × UInt32)} {placed : Placement fmt}

theorem Lands.recordable (lands : Lands maxLevels listed placed) (positive : 1 ≤ maxLevels) :
    placed.Recordable maxLevels := by
  intro item member
  refine ⟨lands.inside positive member, ?_⟩
  have listedToo : (item.1.id, item.2) ∈ listed.map (landing maxLevels) := by
    rw [← lands]
    exact List.mem_map.mpr ⟨item, member, rfl⟩
  obtain ⟨entry, _, same⟩ := List.mem_map.mp listedToo
  have isPlace : item.2 = min entry.2.toNat (maxLevels - 1) := (congrArg Prod.snd same).symm
  rw [isPlace]
  exact lt_of_le_of_lt (min_le_left _ _) entry.2.toNat_lt

/-- A listed table is placed where it lands. -/
theorem Lands.mem (lands : Lands maxLevels listed placed)
    (distinct : (placed.map fun item => item.1.id).Nodup) {table : SsTable fmt}
    (present : table ∈ placed.map (·.1)) {level : UInt32} (entry : (table.id, level) ∈ listed) :
    (table, min level.toNat (maxLevels - 1)) ∈ placed := by
  have landed : (table.id, min level.toNat (maxLevels - 1)) ∈
      placed.map fun item => (item.1.id, item.2) := by
    rw [lands]
    exact List.mem_map.mpr ⟨_, entry, rfl⟩
  obtain ⟨item, member, same⟩ := List.mem_map.mp landed
  obtain ⟨own, isOwn, rfl⟩ := List.mem_map.mp present
  obtain rfl : item = own :=
    List.inj_on_of_nodup_map distinct member isOwn (congrArg Prod.fst same)
  have isPlace : item.2 = min level.toNat (maxLevels - 1) := congrArg Prod.snd same
  rw [← isPlace]
  exact member

/-- A placement has one place for a table. -/
theorem place_unique (distinct : (placed.map fun item => item.1.id).Nodup) {table : SsTable fmt}
    {place place' : Nat} (first : (table, place) ∈ placed) (second : (table, place') ∈ placed) :
    place = place' :=
  congrArg Prod.snd (List.inj_on_of_nodup_map distinct first second rfl)

/-- **A table that lands ahead comes first** in the rebuilt version. -/
theorem LandsAhead.sublist (lands : Lands maxLevels listed placed) (positive : 1 ≤ maxLevels)
    (distinct : (placed.map fun item => item.1.id).Nodup) {newer older : SsTable fmt}
    (isNewer : newer ∈ placed.map (·.1)) (isOlder : older ∈ placed.map (·.1))
    (ahead : LandsAhead maxLevels listed newer older) :
    [newer, older].Sublist (rebuilt maxLevels placed).tablesNewestFirst := by
  obtain ⟨level, level', entry, entry', order⟩ := ahead
  have recordable := lands.recordable positive
  have place := lands.mem distinct isNewer entry
  have place' := lands.mem distinct isOlder entry'
  rw [Version.tables_eq_flatMap, length_levels_rebuilt]
  rcases order with above | ⟨top, top', recorded⟩
  · have inLevel : ∀ {table : SsTable fmt} {depth : Nat}, (table, depth) ∈ placed →
        table ∈ (rebuilt maxLevels placed).level depth := fun member =>
      (level_rebuilt_perm recordable _).mem_iff.mpr (Placement.mem_tablesAt.mpr member)
    refine pair_sublist_flatMap ?_ (inLevel place) (inLevel place')
    have members := fun {table : SsTable fmt} {depth : Nat} (member : (table, depth) ∈ placed) =>
      List.mem_range.mpr (recordable _ member).1
    rcases pair_sublist_of_mem (members place) (members place') (Nat.ne_of_lt above) with
      ordered | swapped
    · exact ordered
    · have back := List.pairwise_iff_forall_sublist.mp List.pairwise_lt_range swapped
      omega
  · -- Both lie in level 0, which is the reverse of the order of the manifest.
    have landed := recorded.map (landing maxLevels)
    rw [← show _ = _ from lands] at landed
    obtain ⟨pair, inside, same⟩ := List.sublist_map_iff.mp landed
    obtain ⟨first, second, rfl⟩ : ∃ first second, pair = [first, second] :=
      List.length_eq_two.mp (by simpa using (congrArg List.length same).symm)
    obtain ⟨sameOlder, sameNewer⟩ : first.1.id = older.id ∧ second.1.id = newer.id := by
      simp only [List.map_cons, List.map_nil, landing, List.cons.injEq, Prod.mk.injEq] at same
      exact ⟨same.1.1.symm, same.2.1.1.symm⟩
    obtain rfl := List.inj_on_of_nodup_map distinct (inside.subset (by simp)) place' sameOlder
    obtain rfl := List.inj_on_of_nodup_map distinct (inside.subset (by simp)) place sameNewer
    have atTop : [older, newer].Sublist (placed.tablesAt 0) := by
      have kept := (inside.filter fun item => item.2 == 0).map (·.1)
      simpa [Placement.tablesAt, top, top'] using kept
    have here : ((rebuilt maxLevels placed).level 0).Sublist
        ((List.range maxLevels).flatMap (rebuilt maxLevels placed).level) := by
      have first := List.Sublist.flatMap
        (List.singleton_sublist.mpr (List.mem_range.mpr positive))
        (rebuilt maxLevels placed).level
      simpa using first
    refine List.Sublist.trans ?_ here
    rw [level_zero_rebuilt positive]
    exact atTop.reverse

/-- Tables that land in one level below level 0 are apart if the ones in front land ahead. -/
theorem disjoint_rebuilt (lands : Lands maxLevels listed placed) (positive : 1 ≤ maxLevels)
    (distinct : (placed.map fun item => item.1.id).Nodup) {tables : List (SsTable fmt)}
    (same : tables.Perm (placed.map (·.1)))
    (order : tables.Pairwise fun newer older =>
      RangesApart newer older ∨ LandsAhead maxLevels listed newer older)
    {depth : Nat} (deep : 1 ≤ depth) :
    LevelDisjoint ((rebuilt maxLevels placed).level depth) := by
  have perm := level_rebuilt_perm (lands.recordable positive) depth
  have once : ((rebuilt maxLevels placed).level depth).Nodup := by
    refine perm.nodup_iff.mpr ?_
    refine List.Nodup.sublist (List.Sublist.map _ List.filter_sublist) ?_
    exact List.Nodup.of_map SsTable.id (by rwa [List.map_map])
  -- Two tables of the level cannot land one ahead of the other.
  have apart : ∀ {newer older : SsTable fmt}, (newer, depth) ∈ placed → (older, depth) ∈ placed →
      RangesApart newer older ∨ LandsAhead maxLevels listed newer older →
      RangesApart newer older := by
    rintro newer older place place' (apart | ⟨level, level', entry, entry', order⟩)
    · exact apart
    · have here := place_unique distinct place
        (lands.mem distinct (List.mem_map.mpr ⟨_, place, rfl⟩) entry)
      have here' := place_unique distinct place'
        (lands.mem distinct (List.mem_map.mpr ⟨_, place', rfl⟩) entry')
      omega
  refine once.pairwise_of_forall_ne ?_
  intro first isFirst second isSecond different
  have place := Placement.mem_tablesAt.mp (perm.subset isFirst)
  have place' := Placement.mem_tablesAt.mp (perm.subset isSecond)
  have inTables : ∀ {table : SsTable fmt}, (table, depth) ∈ placed → table ∈ tables :=
    fun member => same.symm.subset (List.mem_map.mpr ⟨_, member, rfl⟩)
  rcases pair_sublist_of_mem (inTables place) (inTables place') different with ordered | swapped
  · exact apart place place' (List.pairwise_iff_forall_sublist.mp order ordered)
  · exact (apart place' place (List.pairwise_iff_forall_sublist.mp order swapped)).symm

/-- The tables of a placement land where another listing of the same ids says. -/
theorem exists_lands {levels : UInt32 → UInt32 → Prop}
    (same : List.Forall₂ (SameTable levels) listed placed.listing) (maxLevels : Nat) :
    ∃ placed' : Placement fmt, Lands maxLevels listed placed' ∧
      placed'.map (·.1) = placed.map (·.1) := by
  induction placed generalizing listed with
  | nil =>
      cases same
      exact ⟨[], rfl, rfl⟩
  | cons item rest ih =>
      cases same with
      | cons here later =>
          rename_i entry others
          obtain ⟨placed', lands, tables⟩ := ih later
          refine ⟨(item.1, min entry.2.toNat (maxLevels - 1)) :: placed', ?_, ?_⟩
          · have isId : item.1.id = entry.1 := here.1
            rw [Lands, List.map_cons, List.map_cons, lands, landing, isId]
          · rw [List.map_cons, List.map_cons, tables]

end Landing

/-- Levels are not compared. -/
def AnyLevels (_ _ : UInt32) : Prop := True

theorem Lands.sameTables {maxLevels : Nat} {listed : List (UInt64 × UInt32)}
    {placed : Placement fmt} (lands : Lands maxLevels listed placed) :
    List.Forall₂ (SameTable AnyLevels) listed placed.listing := by
  induction listed generalizing placed with
  | nil =>
      obtain rfl : placed = [] := List.map_eq_nil_iff.mp lands
      exact .nil
  | cons entry rest ih =>
      obtain ⟨item, later, rfl, same, lands'⟩ := List.map_eq_cons_iff.mp lands
      have sameId : item.1.id = entry.1 := congrArg Prod.fst same
      exact .cons ⟨sameId, trivial⟩ (ih lands')

/-! ## Placements of rebuilt versions -/

theorem Places.tables_perm {placed : Placement fmt} {version : Version fmt}
    (places : Places placed version) :
    version.tablesNewestFirst.Perm (placed.map (·.1)) := by
  have inside : ∀ item ∈ placed, item.2 < version.levels.length := by
    intro item member
    by_contra outside
    have inLevel := places.mem_iff.mp member
    rw [Version.level_of_le (not_lt.mp outside)] at inLevel
    cases inLevel
  rw [Version.tables_eq_flatMap]
  exact (List.Perm.flatMap_left _ fun depth _ => (places.level_perm depth).symm).trans
    (flatMap_tablesAt_perm inside)

theorem places_rebuilt {maxLevels : Nat} {placed : Placement fmt}
    (recordable : placed.Recordable maxLevels) (positive : 1 ≤ maxLevels) :
    Places placed (rebuilt maxLevels placed) := by
  refine ⟨?_, fun depth _ => (level_rebuilt_perm recordable depth).symm⟩
  rw [level_zero_rebuilt positive, List.reverse_reverse]

section Reordering

variable {sound : fmt.Sound Fits} {files : UInt64 → Option fmt.File} {version : Version fmt}
  {maxLevels : Nat} {listed : List (UInt64 × UInt32)} {placed : Placement fmt}

/-- The rebuilt version is as well stocked. -/
theorem Stocked.rebuilt_inOrder (stocked : Stocked sound files version)
    (lands : Lands maxLevels listed placed) (positive : 1 ≤ maxLevels)
    (same : version.tablesNewestFirst.Perm (placed.map (·.1)))
    (order : version.tablesNewestFirst.Pairwise fun newer older =>
      RangesApart newer older ∨ LandsAhead maxLevels listed newer older) :
    Stocked sound files (rebuilt maxLevels placed) := by
  have distinct : (placed.map fun item => item.1.id).Nodup := by
    have nodup := (same.map SsTable.id).nodup_iff.mp stocked.distinct
    rwa [List.map_map] at nodup
  have perm := (tables_rebuilt_perm (lands.recordable positive)).trans same.symm
  refine ⟨?_, ?_, ?_⟩
  · intro table member
    exact stocked.held table (perm.subset member)
  · exact (perm.map SsTable.id).nodup_iff.mpr stocked.distinct
  · intro depth deep
    exact disjoint_rebuilt lands positive distinct same order deep

/-- The rebuilt version shows the same. -/
theorem Stocked.lookupIn_rebuilt_inOrder (stocked : Stocked sound files version)
    (lands : Lands maxLevels listed placed) (positive : 1 ≤ maxLevels)
    (same : version.tablesNewestFirst.Perm (placed.map (·.1)))
    (order : version.tablesNewestFirst.Pairwise fun newer older =>
      RangesApart newer older ∨ LandsAhead maxLevels listed newer older) (key : Key) :
    lookupIn (entriesOn files) (rebuilt maxLevels placed).tablesNewestFirst key =
      lookupIn (entriesOn files) version.tablesNewestFirst key := by
  have distinct : (placed.map fun item => item.1.id).Nodup := by
    have nodup := (same.map SsTable.id).nodup_iff.mp stocked.distinct
    rwa [List.map_map] at nodup
  have perm := (tables_rebuilt_perm (lands.recordable positive)).trans same.symm
  refine findSome?_reorder perm (List.Nodup.of_map SsTable.id stocked.distinct) ?_
  refine order.imp_of_mem ?_
  intro newer older isNewer isOlder ordered
  rcases ordered with apart | ahead
  · by_cases missing : entryIn (entriesOn files) key newer = none
    · exact .inl missing
    · refine .inr (.inl ?_)
      exact (stocked.levelled.ranged newer isNewer).entryIn_eq_none_of_apart
        (stocked.levelled.ranged older isOlder) apart missing
  · exact .inr (.inr (ahead.sublist lands positive distinct (same.subset isNewer)
      (same.subset isOlder)))

end Reordering

/-! ## Reopening -/

/-- The records that list some tables and set the next id. -/
def listingRecords (manifest : Manifest) : List ManifestRecord :=
  .setNextTableId manifest.nextTableId :: manifest.tables.map fun entry => .addTable entry.1 entry.2

theorem replayAll_adds {tables : List (UInt64 × UInt32)} {manifest : Manifest}
    (distinct : ((manifest.tables ++ tables).map (·.1)).Nodup) :
    Manifest.replayAll (tables.map fun entry => .addTable entry.1 entry.2) manifest =
      .ok { manifest with tables := manifest.tables ++ tables } := by
  induction tables generalizing manifest with
  | nil => rw [List.append_nil]; rfl
  | cons entry rest ih =>
      have unlisted : manifest.lists entry.1 = false := by
        by_contra listed
        have member := Manifest.lists_iff.mp (by simpa using listed)
        rw [List.map_append] at distinct
        exact List.disjoint_of_nodup_append distinct member (by simp)
      rw [List.map_cons, Manifest.replayAll_add unlisted]
      have later := @ih (manifest.added entry.1 entry.2) (by
        simpa [Manifest.added] using distinct)
      rw [later]
      simp [Manifest.added]

theorem replayAll_listing {manifest : Manifest}
    (distinct : (manifest.tables.map (·.1)).Nodup) :
    Manifest.replayAll (listingRecords manifest) .initial = .ok manifest :=
  @replayAll_adds manifest.tables ⟨manifest.nextTableId, []⟩ distinct

section Reopening

variable {sound : fmt.Sound Fits} {history : List Operation} {db : Db fmt} {options : Options}

/-- **A reopening with other options** that keeps the order of the tables keeps the
contents. -/
theorem Backed.reopenWith (backed : Backed sound AnyLevels True history db)
    (positive : 1 ≤ options.maxLevels) (fits : DrainFits Fits db.engine.inbox db)
    (inOrder : ∀ next, LsmStore.shutdown db = .ok () next → next.OpensInOrder options.maxLevels) :
    ∃ after, reopenWith options db = .ok () after ∧ Backed sound AnyLevels True history after := by
  obtain ⟨mid, closed, ⟨shadow, shadows, consistent, shown⟩, _⟩ :=
    backed.shutdown (fun _ => trivial) fits
  have order := inOrder mid closed
  cases shadows with
  | @intro disk engine wal bytes manifest log next tables recorded =>
      obtain rfl := log trivial
      obtain ⟨operations, opFits, isLog, isMemtable⟩ := consistent.logged
      obtain ⟨placed, places, listed⟩ := consistent.mirrored
      rw [listed] at tables
      obtain ⟨placed', lands, sameTables⟩ := exists_lands tables options.maxLevels
      have recordable := lands.recordable positive
      have same : engine.version.tablesNewestFirst.Perm (placed'.map (·.1)) := by
        rw [sameTables]
        exact places.tables_perm
      have stocked : Stocked sound disk.sst engine.version := consistent.stocked
      have replayed : replay disk.wal = .ok operations := by
        refine replay_eq_ok_iff.mpr ⟨fun operation member => (opFits operation member).1, [], ?_,
          .inl (by decide)⟩
        rw [List.append_nil]
        exact isLog
      have opens : ∀ item ∈ placed', Opens disk item.1 := fun item member =>
        (stocked.held item.1 (same.symm.subset (List.mem_map.mpr ⟨item, member, rfl⟩))).opens
      have opened := openWith_of_lands recorded.recover_eq lands
        (fun item member => (recordable item member).1) opens replayed
      -- The shadow lists the levels that the tables have landed in.
      let manifest' : Manifest := ⟨manifest.nextTableId, placed'.listing⟩
      have distinct : (manifest'.tables.map (·.1)).Nodup := by
        have ids : manifest'.tables.map (·.1) = (placed'.map (·.1)).map SsTable.id := by
          simp [manifest', Placement.listing]
        rw [ids]
        exact (same.map SsTable.id).nodup_iff.mp stocked.distinct
      refine ⟨⟨disk, Engine.opened options engine.manifest (rebuilt options.maxLevels placed')
        (applyAll operations), []⟩, ?_, ?_⟩
      · refine bind_eq_ok.mpr ⟨(), _, closed, bind_eq_ok.mpr ⟨_, _, rfl, ?_⟩⟩
        dsimp only
        rw [opened]
        rfl
      · refine ⟨⟨{ disk with manifest := manifestLog (listingRecords manifest') },
          Engine.opened options manifest' (rebuilt options.maxLevels placed')
            (applyAll operations), []⟩, ?_, ?_, ?_⟩
        · exact .intro disk.wal _ manifest' (fun _ => rfl) next lands.sameTables recorded
        · exact
            { positive := positive
              depth := length_levels_rebuilt
              stocked := stocked.rebuilt_inOrder lands positive same order
              sorted := levelsSorted_rebuilt
              mirrored := ⟨placed', places_rebuilt recordable positive, rfl⟩
              unused := consistent.unused
              recorded := ⟨_, rfl, replayAll_listing distinct⟩
              logged := ⟨operations, opFits, isLog, rfl⟩
              thawed := rfl
              coherent := sound.coherent_empty _ _
              noFaults := rfl }
        · intro key
          have memtable : applyAll operations = engine.memtable := isMemtable.symm
          have thawed : engine.immutable = none := consistent.thawed
          have looked := stocked.lookupIn_rebuilt_inOrder lands positive same order key
          rw [← shown key]
          unfold Db.reading Db.tableLookup
          dsimp only [Engine.opened]
          rw [looked, memtable, thawed]

/-- The reopening of a running engine opens the directory with its own options. -/
theorem reopen_eq_reopenWith (db : Db fmt) :
    reopen db = LsmStore.reopenWith db.engine.options db := by
  cases closed : LsmStore.shutdown db with
  | error failure mid => exact (bind_of_error closed).trans (bind_of_error closed).symm
  | ok _ mid =>
      have same : mid.engine.options = db.engine.options :=
        ((effects_alike.shutdown db).ok closed).1
      refine (bind_of_ok closed).trans (Eq.trans ?_ (bind_of_ok closed).symm)
      generalize db.engine.options = own at same ⊢
      subst same
      rfl

end Reopening

/-! ## Runs -/

namespace Call

/-- The verdicts on the file operations of a call. -/
def plan : Call → List Verdict
  | perform _ plan | reopenWith _ plan => plan

/-- The write of a call, if the engine accepts it. -/
def operation : Call → Option Operation
  | perform command _ => command.operation
  | reopenWith _ _ => none

/-- The call does not panic. -/
def Safe (db : Db fmt) : Call → Prop
  | perform command _ => LsmStore.Safe command db
  | reopenWith _ _ => True

/-- The tables that are written before the directory is opened fit, and opening it with a
number of levels keeps the order of the tables. -/
def Reopens (Fits : Options → List (Key × Entry) → Prop) (maxLevels : Nat) (db : Db fmt) : Prop :=
  DrainFits Fits db.engine.inbox db ∧
    ∀ next, shutdown db = .ok () next → next.OpensInOrder maxLevels

/-- The tables that a call writes are ones the format can hold, and a reopening keeps the
order of the tables. -/
def KeepsOrder (Fits : Options → List (Key × Entry) → Prop) (db : Db fmt) : Call → Prop
  | perform .reopen _ => Reopens Fits db.engine.options.maxLevels db
  | perform command _ => Admitted Fits command db
  | reopenWith options _ => Reopens Fits options.maxLevels db

/-- Every call of a run meets a condition in the state it is made in. -/
def AllMeet (Meets : Db fmt → Call → Prop) : List Call → Db fmt → Prop
  | [], _ => True
  | call :: rest, db => Meets db call ∧ ∀ after, call.run db = .ok after → AllMeet Meets rest after

end Call

section Runs

variable {sound : fmt.Sound Fits} {history : List Operation} {db : Db fmt}

namespace Backed

/-- **A call** adds its write to the history, or it panics. -/
theorem run (backed : Backed sound AnyLevels True history db) {call : Call}
    (unfailing : call.plan = []) (hasLevels : call.HasLevels) (meets : call.KeepsOrder Fits db) :
    (∃ after, call.run db = .ok after ∧
        Backed sound AnyLevels True (history ++ call.operation.toList) after) ∨
      ¬ call.Safe db ∧ call.run db = .error .panic := by
  have planned : db.planned [] = db := backed.planned_nil
  have reopening : ∀ {options : Options}, 1 ≤ options.maxLevels →
      Call.Reopens Fits options.maxLevels db → ∃ after, LsmStore.reopenWith options db = .ok () after ∧
        after.planned [] = after ∧ Backed sound AnyLevels True (history ++ []) after := by
    intro options positive reopens
    obtain ⟨after, reopened, backed'⟩ := backed.reopenWith positive reopens.1 reopens.2
    refine ⟨after, reopened, backed'.planned_nil, ?_⟩
    rw [List.append_nil]
    exact backed'
  cases call with
  | reopenWith options plan =>
      obtain rfl : plan = [] := unfailing
      obtain ⟨after, reopened, unplanned, backed'⟩ := reopening hasLevels meets
      refine .inl ⟨after, ?_, backed'⟩
      rw [Call.run, planned, reopened]
      exact congrArg Except.ok unplanned
  | perform command plan =>
      obtain rfl : plan = [] := unfailing
      have runs : (Call.perform command []).run db = attempt command [] db := rfl
      rw [runs, attempt, planned]
      by_cases isReopen : command = .reopen
      · subst isReopen
        obtain ⟨after, reopened, unplanned, backed'⟩ := reopening backed.positive meets
        rw [← reopen_eq_reopenWith] at reopened
        rw [execute_of_ok (show Command.reopen.action db = .ok () after from reopened)]
        exact .inl ⟨after, congrArg Except.ok unplanned, backed'⟩
      · have admitted : Admitted Fits command db := by
          cases command with
          | reopen => exact absurd rfl isReopen
          | _ => exact meets
        rcases backed.execute (fun _ => trivial) isReopen admitted with
          ⟨next, executed, backed'⟩ | ⟨unsafe_, panicked⟩
        · rw [executed]
          exact .inl ⟨next, congrArg Except.ok backed'.planned_nil, backed'⟩
        · rw [panicked]
          exact .inr ⟨unsafe_, rfl⟩

/-- **Whole runs**: in every state a run reaches, the accepted writes are the history. -/
theorem runAll (backed : Backed sound AnyLevels True history db) {calls : List Call}
    (unfailing : ∀ call ∈ calls, call.plan = []) (hasLevels : ∀ call ∈ calls, call.HasLevels)
    (meets : Call.AllMeet (fun db call => call.KeepsOrder Fits db) calls db) :
    (∃ final, Call.runAll calls db = .ok final ∧
        Backed sound AnyLevels True (history ++ calls.filterMap Call.operation) final) ∨
      Call.runAll calls db = .error .panic ∧
        ¬ Call.AllMeet (fun db call => call.Safe db) calls db := by
  induction calls generalizing db history with
  | nil =>
      refine .inl ⟨db, rfl, ?_⟩
      rw [List.filterMap_nil, List.append_nil]
      exact backed
  | cons call rest ih =>
      obtain ⟨unfailing, laterUnfailing⟩ := List.forall_mem_cons.mp unfailing
      obtain ⟨hasLevels, laterLevels⟩ := List.forall_mem_cons.mp hasLevels
      have unrolled : Call.runAll (call :: rest) db = call.run db >>= Call.runAll rest :=
        List.foldlM_cons
      have writes : (call :: rest).filterMap Call.operation =
          call.operation.toList ++ rest.filterMap Call.operation := by
        cases accepted : call.operation with
        | none => rw [List.filterMap_cons_none accepted]; rfl
        | some operation => rw [List.filterMap_cons_some accepted]; rfl
      rw [unrolled, writes]
      rcases backed.run unfailing hasLevels meets.1 with
        ⟨after, ran, backed'⟩ | ⟨unsafe_, panicked⟩
      · rw [ran]
        rcases ih backed' laterUnfailing laterLevels (meets.2 after ran) with
          ends | ⟨panicked, unsafe_⟩
        · rw [List.append_assoc] at ends
          exact .inl ends
        · exact .inr ⟨panicked, fun safe => unsafe_ (safe.2 after ran)⟩
      · rw [panicked]
        exact .inr ⟨rfl, fun safe => unsafe_ safe.1⟩

end Backed

end Runs

/-! ## Results -/

/-- **Reopening with other options keeps the contents.**  In every run without failures whose
reopenings, each with options of its own, keep newer tables in front of older ones with
common keys, a read returns the value of the last write. -/
theorem reopening_with_other_options (sizing : BloomSizing) {options : Options}
    (positive : 1 ≤ options.maxLevels) {start : Db (byteTables sizing)}
    (opened : openNew (byteTables sizing) options = .ok start) (calls : List Call)
    (unfailing : ∀ call ∈ calls, call.plan = []) (hasLevels : ∀ call ∈ calls, call.HasLevels)
    (meets : Call.AllMeet (fun db call => call.KeepsOrder (TableFits sizing) db) calls start) :
    (∃ final, Call.runAll calls start = .ok final ∧
      ∀ key, validateKey key = .ok () →
        final.eval (get key) = .ok (reference (calls.filterMap Call.operation) key)) ∨
    Call.runAll calls start = .error .panic ∧
      ¬ Call.AllMeet (fun db call => call.Safe db) calls start := by
  rw [openNew_eq (byteTables sizing)] at opened
  cases opened
  have consistent := new_consistent (byteTables_sound sizing) positive
  have backed : Backed (byteTables_sound sizing) AnyLevels True []
      (Db.new (byteTables sizing) options) :=
    Backed.of_consistent (fun _ => trivial) consistent (new_refines options)
  rcases backed.runAll unfailing hasLevels meets with ⟨final, ran, backed'⟩ | panics
  · exact .inl ⟨final, ran, fun key valid => backed'.eval_get valid⟩
  · exact .inr panics

/-- Options with a trigger and a number of levels, under which every write flushes. -/
def sinkingOptions (trigger levels : Nat) : Options :=
  { tinyOptions with
    memtableSizeBytes := 0
    l0CompactionTrigger := trigger
    levelSizeMultiplier := 1
    maxLevels := levels }

/-- Two writes of a key, each of which is flushed into a table of level 0. -/
def stackedCalls : List Call := [.perform (.put [97] [49]) [], .perform (.put [97] [50]) []]

theorem stackedTable_fits {value : UInt8} (isValue : value = 49 ∨ value = 50) :
    TableFits smallSizing (sinkingOptions 3 2) [([97], .value [value])] := by
  rcases isValue with rfl | rfl
  · exact ⟨tinyTable_fits.1, tinyTable_fits.2, tinyTable_fits.3, tinyTable_fits.4⟩
  · exact ⟨by unfold BlocksFit; decide +kernel, by decide +kernel, by decide +kernel,
      by decide +kernel⟩

theorem attempt_options {command : Command} {plan : List Verdict} {db after : Db fmt}
    (stays : command ≠ .reopen) (attempted : attempt command plan db = .ok after) :
    after.engine.options = db.engine.options := by
  have moves := effects_alike.command stays (db.planned plan)
  unfold attempt execute at attempted
  cases ran : (command.action : Action fmt Unit) (db.planned plan) with
  | ok _ next =>
      rw [ran] at attempted
      cases attempted
      exact (moves.ok ran).1
  | error failure next =>
      rw [ran] at attempted
      cases failure with
      | panic => cases attempted
      | error cause =>
          dsimp only at attempted
          rw [if_neg stays] at attempted
          cases attempted
          exact (moves.error ran).1

theorem shutdown_of_idle {db : Db fmt} (idle : db.engine.inbox = 0) :
    shutdown db = .ok () db := by
  refine (bind_of_ok (show current db = .ok db db from rfl)).trans ?_
  rw [idle]
  rfl

/-- What the witness below needs of the state after the first write. -/
theorem firstWrite_run :
    (((Call.perform (.put [97] [49]) []).run
        (Db.new (byteTables smallSizing) (sinkingOptions 3 2))).toOption.map fun db =>
      ((apply db.engine.memtable (.put [97] [50])).iter, db.engine.manifest.nextTableId)) =
        some ([([97], .value [50])], 2) := by
  decide +kernel

/-- And after both. -/
theorem stackedCalls_run :
    ((Call.runAll stackedCalls (Db.new (byteTables smallSizing) (sinkingOptions 3 2))).toOption.map
      fun db => (db.engine.inbox, db.engine.version.tablesNewestFirst.map SsTable.id,
        db.engine.manifest.tables)) = some (0, [2, 1], [(1, 0), (2, 0)]) := by
  decide +kernel

theorem opensInOrder_stacked {db : Db fmt}
    (ids : db.engine.version.tablesNewestFirst.map SsTable.id = [2, 1])
    (listed : db.engine.manifest.tables = [(1, 0), (2, 0)]) : db.OpensInOrder 1 := by
  obtain ⟨newer, rest, isTables, isNewer, ids⟩ := List.map_eq_cons_iff.mp ids
  obtain ⟨older, rest, rfl, isOlder, ids⟩ := List.map_eq_cons_iff.mp ids
  obtain rfl : rest = [] := List.map_eq_nil_iff.mp ids
  rw [Db.OpensInOrder, isTables, listed, List.pairwise_pair]
  refine .inr ⟨0, 0, ?_, ?_, .inr ⟨rfl, rfl, ?_⟩⟩
  · simp [isNewer]
  · simp [isOlder]
  · rw [isNewer, isOlder]

/-- The newer of two tables is in front after a reopening with a single level. -/
theorem reopening_with_other_options_shrunk :
    ∃ start final : Db (byteTables smallSizing),
      openNew (byteTables smallSizing) (sinkingOptions 3 2) = .ok start ∧
      Call.runAll (stackedCalls ++ [.reopenWith (sinkingOptions 3 1) []]) start = .ok final ∧
      final.eval (get [97]) = .ok (some [50]) := by
  have first : ∀ after, (Call.perform (.put [97] [49]) []).run
      (Db.new (byteTables smallSizing) (sinkingOptions 3 2)) = .ok after →
      after.engine.options = sinkingOptions 3 2 ∧
        (apply after.engine.memtable (.put [97] [50])).iter = [([97], .value [50])] ∧
        after.engine.manifest.nextTableId = 2 := by
    intro after ran
    have evaluated := firstWrite_run
    rw [ran] at evaluated
    obtain ⟨entries, next⟩ := Prod.mk.inj (Option.some.inj evaluated)
    have attempted : attempt (.put [97] [49]) []
        (Db.new (byteTables smallSizing) (sinkingOptions 3 2)) = .ok after := ran
    have stays : Command.put [97] [49] ≠ .reopen := nofun
    exact ⟨attempt_options stays attempted, entries, next⟩
  have meets : Call.AllMeet (fun db call => call.KeepsOrder (TableFits smallSizing) db)
      (stackedCalls ++ [.reopenWith (sinkingOptions 3 1) []])
      (Db.new (byteTables smallSizing) (sinkingOptions 3 2)) := by
    refine ⟨stackedTable_fits (.inl rfl), fun one ran => ⟨?_, fun two ran' => ⟨?_, ?_⟩⟩⟩
    · obtain ⟨isOptions, entries, _⟩ := first one ran
      change TableFits smallSizing one.engine.options
        (apply one.engine.memtable (.put [97] [50])).iter
      rw [isOptions, entries]
      exact stackedTable_fits (.inr rfl)
    · have both : Call.runAll stackedCalls
          (Db.new (byteTables smallSizing) (sinkingOptions 3 2)) = .ok two := by
        rw [Call.runAll, stackedCalls, List.foldlM_cons, ran]
        change List.foldlM Call.run one [.perform (.put [97] [50]) []] = _
        rw [List.foldlM_cons, ran']
        rfl
      have evaluated := stackedCalls_run
      rw [both] at evaluated
      obtain ⟨idle, seen⟩ := Prod.mk.inj (Option.some.inj evaluated)
      obtain ⟨ids, listed⟩ := Prod.mk.inj seen
      refine ⟨?_, fun next closed => ?_⟩
      · rw [idle]
        trivial
      · rw [shutdown_of_idle idle] at closed
        cases closed
        exact opensInOrder_stacked ids listed
    · exact fun _ _ => trivial
  have safe : Call.AllMeet (fun db call => call.Safe db)
      (stackedCalls ++ [.reopenWith (sinkingOptions 3 1) []])
      (Db.new (byteTables smallSizing) (sinkingOptions 3 2)) := by
    refine ⟨?_, fun one ran => ⟨?_, fun _ _ => ⟨trivial, fun _ _ => trivial⟩⟩⟩
    · change (1 : UInt64).toNat + 1 ≤ u64Max
      decide
    · change one.engine.manifest.nextTableId.toNat + 1 ≤ u64Max
      rw [(first one ran).2.2]
      decide
  rcases reopening_with_other_options smallSizing (by decide) (openNew_eq _ _)
      (stackedCalls ++ [.reopenWith (sinkingOptions 3 1) []]) (by simp [stackedCalls, Call.plan])
      (by simp [stackedCalls, Call.HasLevels, sinkingOptions]) meets with
    ⟨final, ran, reads⟩ | ⟨_, unsafe_⟩
  · exact ⟨_, final, openNew_eq _ _, ran, reads [97] rfl⟩
  · exact absurd safe unsafe_

/-- Two writes are compacted into level 1, a third one stays in level 0, and the table of
level 1 sinks to level 2. -/
def sinkingCalls : List Call :=
  [.perform (.put [97] [48]) [], .perform (.put [97] [49]) [], .perform .compact [],
    .perform (.put [97] [50]) [], .perform .compact []]

/-- **A reopening with fewer levels brings an overwritten value back.**  The table that sank
was entered into the manifest behind the table of the last write.  With a single level both
lie in level 0, and the one that was entered last is taken for the newer one. -/
theorem shrunk_database_loses_write :
    ∃ start full final : Db (byteTables smallSizing),
      openNew (byteTables smallSizing) (sinkingOptions 2 3) = .ok start ∧
      Call.runAll sinkingCalls start = .ok full ∧ full.eval (get [97]) = .ok (some [50]) ∧
      Call.run full (.reopenWith (sinkingOptions 2 1) []) = .ok final ∧
      final.eval (get [97]) = .ok (some [49]) := by
  have evaluated : ((Call.runAll sinkingCalls
      (Db.new (byteTables smallSizing) (sinkingOptions 2 3))).toOption.map fun full =>
        (full.eval (get [97]),
          (Call.run full (.reopenWith (sinkingOptions 2 1) [])).toOption.map
            fun final => final.eval (get [97]))) =
      some (.ok (some [50]), some (.ok (some [49]))) := by
    decide +kernel
  cases ran : Call.runAll sinkingCalls (Db.new (byteTables smallSizing) (sinkingOptions 2 3)) with
  | error failure => rw [ran] at evaluated; cases evaluated
  | ok full =>
      rw [ran] at evaluated
      obtain ⟨before, after⟩ := Prod.mk.inj (Option.some.inj evaluated)
      cases reopened : Call.run full (.reopenWith (sinkingOptions 2 1) []) with
      | error failure => rw [reopened] at after; cases after
      | ok final =>
          rw [reopened] at after
          exact ⟨_, full, final, openNew_eq _ _, ran, before, reopened, Option.some.inj after⟩

end LsmStore
