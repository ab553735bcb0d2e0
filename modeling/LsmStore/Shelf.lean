import LsmStore.Failures
import LsmStore.Foundation.Outcomes

/-!
# What a directory brings back

While the engine runs, its directory holds what a reopening would find: a manifest
file, which may end in a torn record, the tables it lists, and the log.  A shelf
names the three.  Opening the directory of a shelf succeeds and puts the tables
where the manifest lists them (`Shelved.openWith_eq`).

The shelf need not agree with what the engine has in memory: a failed append may
have left a complete record behind.
-/

set_option autoImplicit false

namespace LsmStore

open Foundation

variable {fmt : TableFormat} {Fits : Options → List (Key × Entry) → Prop}

/-! ## Manifest files -/

/-- The bytes are complete records, which replay to the manifest, and perhaps a
fragment of one more. -/
def RecordsTo (bytes : Bytes) (manifest : Manifest) : Prop :=
  ∃ records fragment, bytes = manifestLog records ++ fragment ∧
    fragment.length < manifestRecordLen ∧ Manifest.replayAll records .initial = .ok manifest

/-- The bytes are complete records. -/
def Whole (bytes : Bytes) : Prop := bytes.length % manifestRecordLen = 0

instance (bytes : Bytes) : Decidable (Whole bytes) :=
  inferInstanceAs (Decidable (bytes.length % manifestRecordLen = 0))

theorem length_manifestLog (records : List ManifestRecord) :
    (manifestLog records).length = records.length * manifestRecordLen := by
  induction records with
  | nil => rfl
  | cons record rest ih =>
      rw [manifestLog, List.flatMap_cons, List.length_append, record.length_encode, ← manifestLog,
        ih, List.length_cons, Nat.succ_mul, Nat.add_comm]

theorem whole_manifestLog (records : List ManifestRecord) : Whole (manifestLog records) := by
  rw [Whole, length_manifestLog]
  exact Nat.mul_mod_left _ _

namespace RecordsTo

variable {bytes : Bytes} {manifest manifest' : Manifest}

theorem of_records {records : List ManifestRecord} (isLog : bytes = manifestLog records)
    (replayed : Manifest.replayAll records .initial = .ok manifest) : RecordsTo bytes manifest :=
  ⟨records, [], by rw [isLog, List.append_nil], by decide, replayed⟩

theorem recover (recorded : RecordsTo bytes manifest) : Manifest.recover bytes = .ok manifest := by
  obtain ⟨records, fragment, rfl, short, replayed⟩ := recorded
  rw [Manifest.recover_log records short, replayed]

/-- Complete records leave no fragment. -/
theorem records_of_whole (recorded : RecordsTo bytes manifest) (whole : Whole bytes) :
    ∃ records, bytes = manifestLog records ∧
      Manifest.replayAll records .initial = .ok manifest := by
  obtain ⟨records, fragment, rfl, short, replayed⟩ := recorded
  rw [Whole, List.length_append, length_manifestLog, Nat.mul_add_mod_self_right,
    Nat.mod_eq_of_lt short] at whole
  rw [List.length_eq_zero_iff.mp whole, List.append_nil]
  exact ⟨records, rfl, replayed⟩

/-- More complete records. -/
theorem append_log (recorded : RecordsTo bytes manifest) (whole : Whole bytes)
    {more : List ManifestRecord} (replayed : Manifest.replayAll more manifest = .ok manifest') :
    RecordsTo (bytes ++ manifestLog more) manifest' ∧ Whole (bytes ++ manifestLog more) := by
  obtain ⟨records, rfl, earlier⟩ := recorded.records_of_whole whole
  rw [← manifestLog_append]
  refine ⟨of_records rfl ?_, whole_manifestLog _⟩
  rw [Manifest.replayAll_append, earlier]
  exact replayed

theorem append (recorded : RecordsTo bytes manifest) (whole : Whole bytes)
    {record : ManifestRecord} (replayed : manifest.replayRecord record = .ok manifest') :
    RecordsTo (bytes ++ record.encode) manifest' ∧ Whole (bytes ++ record.encode) := by
  have replayedAll : Manifest.replayAll [record] manifest = .ok manifest' := by
    rw [Manifest.replayAll, replayed]
    rfl
  have appended := recorded.append_log whole replayedAll
  rwa [manifestLog, List.flatMap_singleton] at appended

/-- Part of a record: a fragment changes nothing, all of it is one more record. -/
theorem append_part (recorded : RecordsTo bytes manifest) (whole : Whole bytes)
    {record : ManifestRecord} (replayed : manifest.replayRecord record = .ok manifest')
    (progress : Nat) :
    RecordsTo (bytes ++ record.encode.take progress) manifest ∨
      manifestRecordLen ≤ progress ∧
        RecordsTo (bytes ++ record.encode.take progress) manifest' := by
  by_cases all : manifestRecordLen ≤ progress
  · rw [List.take_of_length_le (by rw [record.length_encode]; exact all)]
    exact .inr ⟨all, (recorded.append whole replayed).1⟩
  · obtain ⟨records, rfl, earlier⟩ := recorded.records_of_whole whole
    refine .inl ⟨records, record.encode.take progress, rfl, ?_, earlier⟩
    rw [List.length_take]
    exact lt_of_le_of_lt (Nat.min_le_left _ _) (Nat.lt_of_not_le all)

end RecordsTo

/-! ## Shelves -/

/-- What the directory would bring back: the manifest its file replays to, the
version which that lists, and the operations in the log. -/
structure Shelf (fmt : TableFormat) where
  manifest : Manifest
  version : Version fmt
  operations : List Operation

namespace Shelf

/-- What a lookup through the listed tables finds. -/
def tableLookup (shelf : Shelf fmt) (files : UInt64 → Option fmt.File) (key : Key) : Option Entry :=
  lookupIn (entriesOn files) shelf.version.tablesNewestFirst key

/-- What a read sees after a reopening. -/
def reading (shelf : Shelf fmt) (files : UInt64 → Option fmt.File) (key : Key) : Option Bytes :=
  visible (((applyAll shelf.operations).get key).or (shelf.tableLookup files key))

end Shelf

/-- The directory holds the shelf. -/
structure Shelved (sound : fmt.Sound Fits) (options : Options) (disk : Disk fmt)
    (shelf : Shelf fmt) : Prop where
  recorded : RecordsTo disk.manifest shelf.manifest
  mirrored : Mirrors shelf.manifest.tables shelf.version
  positive : 1 ≤ options.maxLevels
  depth : shelf.version.levels.length = options.maxLevels
  stocked : Stocked sound disk.sst shelf.version
  fit : ∀ operation ∈ shelf.operations, operation.Fits ∧ operation.key ≠ []
  logged : disk.wal = records shelf.operations

namespace Shelved

variable {sound : fmt.Sound Fits} {options : Options} {disk : Disk fmt} {shelf : Shelf fmt}

theorem replayed (shelved : Shelved sound options disk shelf) :
    replay disk.wal = .ok shelf.operations := by
  rw [shelved.logged]
  exact replay_eq_ok_iff.mpr ⟨fun operation member => (shelved.fit operation member).1,
    [], (List.append_nil _).symm, .inl (by decide)⟩

/-- **Opening the directory** of a shelf succeeds: it finds the tables where the
manifest lists them and replays the log. -/
theorem openWith_eq (shelved : Shelved sound options disk shelf) (fit : LevelsFit shelf.version) :
    ∃ placed : Placement fmt, Places placed shelf.version ∧
      shelf.manifest.tables = placed.listing ∧
      openWith options disk =
        .ok (Engine.opened options shelf.manifest (rebuilt options.maxLevels placed)
          (applyAll shelf.operations)) := by
  obtain ⟨placed, places, listed⟩ := shelved.mirrored
  have recordable := places.recordable fit
  rw [shelved.depth] at recordable
  exact ⟨placed, places, listed, openWith_of_placement sound shelved.recorded.recover listed
    (fun item member => shelved.stocked.held item.1 (places.mem_tables member)) recordable
    shelved.replayed⟩

end Shelved

end LsmStore
