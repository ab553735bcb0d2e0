import LsmStore.ManifestTail
import LsmStore.Shelf

/-!
# The manifest in memory and the manifest on disk

The calls of the manifest update a list in memory and append records to a file,
and recovery rebuilds the list from the file.  These are two implementations of
one state machine.  They stay in step through every sequence of calls, refused
ones included, and a file cut at any byte recovers to what its complete records
say (`manifest_log_replays`).
-/

set_option autoImplicit false

namespace LsmStore

open Foundation

variable {fmt : TableFormat}

/-! ## What a record says -/

/-- The manifest after a record, whether or not replay would accept it. -/
def Manifest.applied (manifest : Manifest) : ManifestRecord → Manifest
  | .addTable id level => manifest.added id level
  | .removeTable id => manifest.removed [id]
  | .setNextTableId id => { manifest with nextTableId := id }

namespace Manifest

theorem replayRecord_applied {manifest next : Manifest} {record : ManifestRecord}
    (replayed : manifest.replayRecord record = .ok next) : next = manifest.applied record := by
  cases record with
  | addTable id level =>
      rw [replayRecord] at replayed
      split at replayed
      · cases replayed
      · cases replayed
        rfl
  | removeTable id =>
      cases replayed
      rw [applied, ← removed_cons, removed_nil]
  | setNextTableId id =>
      cases replayed
      rfl

theorem replayAll_applied {records : List ManifestRecord} {manifest final : Manifest}
    (replayed : replayAll records manifest = .ok final) :
    final = records.foldl applied manifest := by
  induction records generalizing manifest with
  | nil => cases replayed; rfl
  | cons record rest ih =>
      rw [replayAll] at replayed
      split at replayed
      · cases replayed
      · rename_i next first
        rw [List.foldl_cons, ← replayRecord_applied first]
        exact ih replayed

/-- Where a replay succeeds, so does the replay of fewer records. -/
theorem replayAll_take {records : List ManifestRecord} {manifest final : Manifest}
    (replayed : replayAll records manifest = .ok final) (count : Nat) :
    replayAll (records.take count) manifest = .ok ((records.take count).foldl applied manifest) := by
  rw [← List.take_append_drop count records, replayAll_append] at replayed
  cases first : replayAll (records.take count) manifest with
  | error cause => rw [first] at replayed; cases replayed
  | ok next => rw [replayAll_applied first]

end Manifest

/-- A file of complete records, cut at any byte, is the records before the cut and a
fragment of the next one. -/
theorem take_manifestLog (records : List ManifestRecord) (size : Nat) :
    ∃ fragment, (manifestLog records).take size =
        manifestLog (records.take (size / manifestRecordLen)) ++ fragment ∧
      fragment.length < manifestRecordLen := by
  induction records generalizing size with
  | nil => exact ⟨[], by simp [manifestLog], by decide⟩
  | cons record rest ih =>
      have whole : manifestLog (record :: rest) = record.encode ++ manifestLog rest :=
        List.flatMap_cons
      have positive : 0 < manifestRecordLen := by decide
      by_cases inside : manifestRecordLen ≤ size
      · obtain ⟨fragment, cut, short⟩ := ih (size - manifestRecordLen)
        have count : size / manifestRecordLen = (size - manifestRecordLen) / manifestRecordLen + 1 :=
          Nat.div_eq_sub_div positive inside
        refine ⟨fragment, ?_, short⟩
        rw [count, List.take_succ_cons, whole, List.take_append, record.length_encode,
          List.take_of_length_le (by rw [record.length_encode]; exact inside), cut,
          ← List.append_assoc]
        rfl
      · refine ⟨record.encode.take size, ?_, ?_⟩
        · rw [Nat.div_eq_of_lt (Nat.lt_of_not_le inside), List.take_zero, whole,
            List.take_append_of_le_length (by rw [record.length_encode]; omega)]
          rfl
        · rw [List.length_take]
          omega

/-! ## Sequences of calls -/

/-- The state after a sequence of calls.  A refused call returns an error, and the
next one is made on the state it left. -/
def attemptCalls : List ManifestCall → Db fmt → Db fmt
  | [], db => db
  | call :: rest, db =>
      match call.action db with
      | .ok () next => attemptCalls rest next
      | .error _ next => attemptCalls rest next

/-- The manifest file is the log of complete records that replay to the manifest in
memory, and no file operation will fail. -/
structure InLog (db : Db fmt) : Prop where
  recorded : ∃ records, db.disk.manifest = manifestLog records ∧
    Manifest.replayAll records .initial = .ok db.engine.manifest
  sane : db.faults = []

/-- When no file operation fails, a call succeeds, or it is refused and changes
nothing. -/
theorem call_noFaults (call : ManifestCall) (disk : Disk fmt) (engine : Engine fmt) :
    (∃ disk' engine', call.action ⟨disk, engine, []⟩ = .ok () ⟨disk', engine', []⟩) ∨
      ∃ failure, call.action ⟨disk, engine, []⟩ = .error failure ⟨disk, engine, []⟩ := by
  cases call with
  | addTable id level =>
      cases ended : addTable id level ⟨disk, engine, []⟩ with
      | ok value next =>
          obtain ⟨unlisted, _⟩ := addTable_of_ok ended
          exact .inl ⟨_, _, addTable_noFaults unlisted⟩
      | error failure next =>
          rcases addTable_of_error ended with ⟨_, _, rfl⟩ | ⟨_, _, _, impossible, _⟩
          · exact .inr ⟨failure, ended⟩
          · cases impossible
  | removeTables ids => exact .inl ⟨_, _, removeTables_noFaults ids disk engine⟩
  | nextTableId =>
      change (∃ disk' engine', EStateM.map _ nextTableId _ = .ok () ⟨disk', engine', []⟩) ∨
        ∃ failure, EStateM.map _ nextTableId _ = .error failure _
      unfold EStateM.map
      by_cases room : engine.manifest.nextTableId.toNat + 1 ≤ u64Max
      · rw [nextTableId_noFaults room]
        exact .inl ⟨_, _, rfl⟩
      · rw [nextTableId_panic (show ¬ Roomy (⟨disk, engine, []⟩ : Db fmt) from room)]
        exact .inr ⟨_, rfl⟩

namespace InLog

variable {db : Db fmt}

/-- A call that succeeds appends its records. -/
theorem call_ok (logged : InLog db) {call : ManifestCall} {next : Db fmt}
    (done : call.action db = .ok () next) (sane : next.faults = []) : InLog next := by
  obtain ⟨records, file, replayed⟩ := logged.recorded
  obtain ⟨written, memory, effect⟩ := call_of_ok done
  refine ⟨⟨records ++ call.records db.engine.manifest, ?_, ?_⟩, sane⟩
  · rw [written, file, manifestLog_append]
  · rw [Manifest.replayAll_append, replayed, memory]
    exact effect

/-- File and memory stay in step through every sequence of calls. -/
theorem attemptCalls (calls : List ManifestCall) (logged : InLog db) :
    InLog (attemptCalls calls db) := by
  induction calls generalizing db with
  | nil => exact logged
  | cons call rest ih =>
      obtain ⟨disk, engine, faults⟩ := db
      obtain rfl : faults = [] := logged.sane
      rw [LsmStore.attemptCalls]
      rcases call_noFaults call disk engine with ⟨disk', engine', done⟩ | ⟨failure, refused⟩
      · rw [done]
        exact ih (logged.call_ok done rfl)
      · rw [refused]
        exact ih logged

end InLog

/-- **The manifest's log.**  Calls are made on an empty manifest, and no file
operation fails.  The file is then a sequence of complete records; cut at any byte
it recovers to the list and the next id that the records before the cut give, and
uncut to the manifest in memory. -/
theorem manifest_log_replays (calls : List ManifestCall) (disk : Disk fmt) (engine : Engine fmt) :
    let final := attemptCalls calls
      ⟨{ disk with manifest := [] }, { engine with manifest := .initial }, []⟩
    ∃ records, final.disk.manifest = manifestLog records ∧
      (∀ size, Manifest.recover (final.disk.manifest.take size) =
        .ok ((records.take (size / manifestRecordLen)).foldl Manifest.applied .initial)) ∧
      Manifest.recover final.disk.manifest = .ok final.engine.manifest := by
  intro final
  have start : @InLog fmt
      ⟨{ disk with manifest := [] }, { engine with manifest := .initial }, []⟩ :=
    ⟨⟨[], rfl, rfl⟩, rfl⟩
  obtain ⟨records, file, replayed⟩ := (start.attemptCalls calls).recorded
  refine ⟨records, file, fun size => ?_, ?_⟩
  · obtain ⟨fragment, cut, short⟩ := take_manifestLog records size
    rw [file, cut, Manifest.recover_log _ short]
    exact Manifest.replayAll_take replayed _
  · exact (RecordsTo.of_records file replayed).recover

end LsmStore
