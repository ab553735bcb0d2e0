import LsmStore.Steps

/-!
# Manifests with a torn record

Recovery ignores a trailing fragment of a record, but it leaves the fragment in
the file, and the next record is appended behind it.  All records have the same
length, so from then on every record is read from the wrong place.

A recovery succeeds exactly when the bytes are a sequence of frames that decode
as records, followed by a fragment (`recover_eq_ok_iff`).  This says when the
calls made after a tear survive: when the tear left nothing behind, when nothing
is appended, or when the bytes happen to frame as records of the same effect.
-/

set_option autoImplicit false

namespace LsmStore

variable {fmt : TableFormat}

/-! ## Calls -/

/-- A call of one of the manifest's updating functions. -/
inductive ManifestCall where
  | addTable (id : UInt64) (level : UInt32)
  | removeTables (ids : List UInt64)
  | nextTableId

namespace ManifestCall

/-- What the engine runs for a call. -/
def action : ManifestCall → Action fmt Unit
  | .addTable id level => LsmStore.addTable id level
  | .removeTables ids => LsmStore.removeTables ids
  | .nextTableId => discard LsmStore.nextTableId

/-- The records that a successful call appends. -/
def records (manifest : Manifest) : ManifestCall → List ManifestRecord
  | .addTable id level => [.addTable id level]
  | .removeTables ids => ids.map .removeTable
  | .nextTableId => [.setNextTableId (manifest.nextTableId + 1)]

/-- What a successful call leaves in memory. -/
def effect (manifest : Manifest) : ManifestCall → Manifest
  | .addTable id level => manifest.added id level
  | .removeTables ids => manifest.removed ids
  | .nextTableId => manifest.allocated

end ManifestCall

/-- Runs calls one after the other. -/
def callAll : List ManifestCall → Action fmt Unit
  | [] => return ()
  | call :: rest => do
      call.action
      callAll rest

/-- The records that successful calls append. -/
def recordsOf : List ManifestCall → Manifest → List ManifestRecord
  | [], _ => []
  | call :: rest, manifest => call.records manifest ++ recordsOf rest (call.effect manifest)

/-- A successful call appends its records, and replaying them has its effect. -/
theorem call_of_ok {call : ManifestCall} {db db' : Db fmt} (done : call.action db = .ok () db') :
    db'.disk.manifest = db.disk.manifest ++ manifestLog (call.records db.engine.manifest) ∧
      db'.engine.manifest = call.effect db.engine.manifest ∧
      Manifest.replayAll (call.records db.engine.manifest) db.engine.manifest =
        .ok (call.effect db.engine.manifest) := by
  cases call with
  | addTable id level =>
      obtain ⟨unlisted, faults, rfl⟩ := addTable_of_ok done
      exact ⟨by simp [ManifestCall.records, manifestLog], rfl,
        Manifest.replayAll_add unlisted level []⟩
  | removeTables ids =>
      obtain ⟨faults, rfl⟩ := removeTables_of_ok done
      exact ⟨rfl, rfl, Manifest.replayAll_removes ids _⟩
  | nextTableId =>
      obtain ⟨id, allocated⟩ : ∃ id, nextTableId db = .ok id db' := by
        change EStateM.map (Function.const _ ()) nextTableId db = _ at done
        unfold EStateM.map at done
        split at done
        · rename_i id _ isId
          cases done
          exact ⟨id, isId⟩
        · cases done
      obtain ⟨rfl, _, faults, rfl⟩ := nextTableId_of_ok allocated
      exact ⟨by simp [ManifestCall.records, manifestLog], rfl, rfl⟩

theorem callAll_of_ok {calls : List ManifestCall} {db db' : Db fmt}
    (done : callAll calls db = .ok () db') :
    db'.disk.manifest = db.disk.manifest ++ manifestLog (recordsOf calls db.engine.manifest) ∧
      Manifest.replayAll (recordsOf calls db.engine.manifest) db.engine.manifest =
        .ok db'.engine.manifest := by
  induction calls generalizing db with
  | nil =>
      cases done
      exact ⟨by simp [recordsOf, manifestLog], rfl⟩
  | cons call rest ih =>
      rw [callAll] at done
      obtain ⟨_, middle, called, done⟩ := bind_eq_ok.mp done
      obtain ⟨file, memory, replayed⟩ := call_of_ok called
      obtain ⟨laterFile, laterReplayed⟩ := ih done
      rw [memory] at laterFile laterReplayed
      rw [recordsOf, manifestLog_append, Manifest.replayAll_append, replayed]
      exact ⟨by rw [laterFile, file, List.append_assoc], laterReplayed⟩

/-! ## What recovery reads -/

/-- The bytes are one complete record of the manifest. -/
structure Framed (frame : Bytes) (record : ManifestRecord) : Prop where
  length : frame.length = manifestRecordLen
  checksum : crc32 (frame.drop 4) = readU32Le (frame.take 4)
  decodes : ManifestRecord.decodeBody (frame.drop 4) = .ok record

/-- The bytes frame as records, and replaying these takes one manifest to another. -/
def FramesTo (bytes : Bytes) (before after : Manifest) : Prop :=
  ∃ (frames : List Bytes) (records : List ManifestRecord) (tail : Bytes),
    bytes = frames.flatten ++ tail ∧ tail.length < manifestRecordLen ∧
      List.Forall₂ Framed frames records ∧ Manifest.replayAll records before = .ok after

theorem framed_encode (record : ManifestRecord) : Framed record.encode record := by
  have length := length_u32ToLeBytes (crc32 record.body)
  have body : record.encode.drop 4 = record.body := List.drop_left' length
  have checksum : record.encode.take 4 = u32ToLeBytes (crc32 record.body) := List.take_left' length
  refine ⟨record.length_encode, ?_, ?_⟩
  · rw [body, checksum, readU32Le_u32ToLeBytes]
  · rw [body, ManifestRecord.decodeBody_body]

/-- Recovery of a first frame and what follows it. -/
theorem recoverFrom_framed {frame : Bytes} {record : ManifestRecord} (framed : Framed frame record)
    (fuel : Nat) (rest : Bytes) (manifest : Manifest) :
    Manifest.recoverFrom (fuel + 1) (frame ++ rest) manifest =
      match manifest.replayRecord record with
      | .error cause => .error cause
      | .ok next => Manifest.recoverFrom fuel rest next := by
  have first : (frame ++ rest).take manifestRecordLen = frame := List.take_left' framed.length
  have others : (frame ++ rest).drop manifestRecordLen = rest := List.drop_left' framed.length
  have long : ¬ (frame ++ rest).length < manifestRecordLen := by
    rw [List.length_append, framed.length]
    omega
  cases replayed : manifest.replayRecord record <;>
    simp only [Manifest.recoverFrom, if_neg long, first, others, framed.checksum, framed.decodes,
      replayed, ne_eq, not_true_eq_false, if_false]

/-- Bytes too short for a record frame as none. -/
theorem framesTo_of_short {bytes : Bytes} (short : bytes.length < manifestRecordLen)
    {before after : Manifest} : FramesTo bytes before after ↔ before = after := by
  constructor
  · rintro ⟨frames, records, tail, isBytes, _, framed, replayed⟩
    cases framed with
    | nil => exact Except.ok.inj replayed
    | cons first _ =>
        rw [isBytes, List.flatten_cons, List.length_append, List.length_append,
          first.length] at short
        omega
  · rintro rfl
    exact ⟨[], [], bytes, rfl, short, List.Forall₂.nil, rfl⟩

/-- Bytes long enough for a record frame as a record and what its replay leaves to frame. -/
theorem framesTo_of_long {bytes : Bytes} (long : ¬ bytes.length < manifestRecordLen)
    {before after : Manifest} : FramesTo bytes before after ↔
      ∃ frame rest record next, bytes = frame ++ rest ∧ Framed frame record ∧
        before.replayRecord record = .ok next ∧ FramesTo rest next after := by
  constructor
  · rintro ⟨frames, records, tail, isBytes, short, framed, replayed⟩
    cases framed with
    | nil =>
        rw [isBytes, List.flatten_nil, List.nil_append] at long
        exact absurd short long
    | @cons frame record frames records first others =>
        rw [Manifest.replayAll] at replayed
        cases replay : before.replayRecord record with
        | error cause =>
            rw [replay] at replayed
            cases replayed
        | ok next =>
            rw [replay] at replayed
            refine ⟨frame, frames.flatten ++ tail, record, next, ?_, first, replay,
              frames, records, tail, rfl, short, others, replayed⟩
            rw [isBytes, List.flatten_cons, List.append_assoc]
  · rintro ⟨frame, _, record, next, rfl, first, replay, frames, records, tail, rfl, short, others,
      replayed⟩
    refine ⟨frame :: frames, record :: records, tail, ?_, short,
      List.Forall₂.cons first others, ?_⟩
    · rw [List.flatten_cons, List.append_assoc]
    · rw [Manifest.replayAll, replay]
      exact replayed

/-- A recovery that goes on past the first record has read it. -/
theorem exists_framed_of_recoverFrom {fuel : Nat} {bytes : Bytes} {before after : Manifest}
    (long : ¬ bytes.length < manifestRecordLen)
    (recovered : Manifest.recoverFrom (fuel + 1) bytes before = .ok after) :
    ∃ record next, Framed (bytes.take manifestRecordLen) record ∧
      before.replayRecord record = .ok next ∧
      Manifest.recoverFrom fuel (bytes.drop manifestRecordLen) next = .ok after := by
  rw [Manifest.recoverFrom, if_neg long] at recovered
  dsimp only at recovered
  split at recovered
  · cases recovered
  · rename_i checksum
    split at recovered
    · cases recovered
    · rename_i record decodes
      split at recovered
      · cases recovered
      · rename_i next replay
        exact ⟨record, next, ⟨by rw [List.length_take]; omega, not_not.mp checksum, decodes⟩,
          replay, recovered⟩

/-- **What recovery accepts.** -/
theorem recoverFrom_eq_ok_iff {fuel : Nat} {bytes : Bytes} {before after : Manifest}
    (enough : bytes.length ≤ fuel) :
    Manifest.recoverFrom fuel bytes before = .ok after ↔ FramesTo bytes before after := by
  induction fuel generalizing bytes before with
  | zero =>
      have short : bytes.length < manifestRecordLen := by
        have : 0 < manifestRecordLen := by decide
        omega
      rw [framesTo_of_short short]
      exact ⟨Except.ok.inj, fun same => congrArg Except.ok same⟩
  | succ fuel ih =>
      by_cases short : bytes.length < manifestRecordLen
      · rw [framesTo_of_short short, Manifest.recoverFrom, if_pos short]
        exact ⟨Except.ok.inj, fun same => congrArg Except.ok same⟩
      · rw [framesTo_of_long short]
        have positive : 0 < manifestRecordLen := by decide
        constructor
        · intro recovered
          obtain ⟨record, next, framed, replay, later⟩ :=
            exists_framed_of_recoverFrom short recovered
          refine ⟨_, _, record, next, (List.take_append_drop _ bytes).symm, framed, replay, ?_⟩
          exact (ih (by rw [List.length_drop]; omega)).mp later
        · rintro ⟨frame, rest, record, next, rfl, framed, replay, later⟩
          rw [recoverFrom_framed framed, replay]
          rw [List.length_append, framed.length] at enough
          exact (ih (by omega)).mpr later

theorem recover_eq_ok_iff {bytes : Bytes} {manifest : Manifest} :
    Manifest.recover bytes = .ok manifest ↔ FramesTo bytes .initial manifest :=
  recoverFrom_eq_ok_iff (le_refl _)

/-- Complete records frame as themselves. -/
theorem framesTo_log_append {records : List ManifestRecord} {before middle after : Manifest}
    (replayed : Manifest.replayAll records before = .ok middle) (rest : Bytes) :
    FramesTo (manifestLog records ++ rest) before after ↔ FramesTo rest middle after := by
  induction records generalizing before with
  | nil =>
      cases replayed
      rfl
  | cons record records ih =>
      rw [Manifest.replayAll] at replayed
      cases replay : before.replayRecord record with
      | error cause =>
          rw [replay] at replayed
          cases replayed
      | ok next =>
          rw [replay] at replayed
          have split : manifestLog (record :: records) ++ rest =
              record.encode ++ (manifestLog records ++ rest) := by
            simp [manifestLog]
          have long : ¬ (manifestLog (record :: records) ++ rest).length < manifestRecordLen := by
            rw [split, List.length_append, record.length_encode]
            omega
          rw [framesTo_of_long long, ← ih replayed, split]
          constructor
          · rintro ⟨frame, others, read, after', isBytes, framed, readReplay, later⟩
            have sameLength : record.encode.length = frame.length :=
              record.length_encode.trans framed.length.symm
            obtain ⟨rfl, rfl⟩ := List.append_inj isBytes sameLength
            have sameRecord := framed.decodes.symm.trans (framed_encode record).decodes
            cases sameRecord
            rw [replay] at readReplay
            cases readReplay
            exact later
          · intro later
            exact ⟨_, _, record, next, rfl, framed_encode record, replay, later⟩

/-! ## Going on after a tear -/

/-- **When updates behind a torn record survive.**  A manifest of complete
records ends in a fragment cut off one more record; it is opened, and calls that
update it succeed.  Opening keeps the fragment, so a later opening recovers what
the calls left in memory exactly when the fragment is empty, nothing was
appended, or the fragment followed by the new records happens to frame as
records of the same effect. -/
theorem torn_manifest_recovers_iff (db db' : Db fmt) (complete : List ManifestRecord)
    (last : ManifestRecord) (fragment missing : Bytes) (calls : List ManifestCall)
    (cut : last.encode = fragment ++ missing) (strict : missing ≠ [])
    (file : db.disk.manifest = manifestLog complete ++ fragment)
    (opened : Manifest.recover db.disk.manifest = .ok db.engine.manifest)
    (updated : callAll calls db = .ok () db') :
    Manifest.recover db'.disk.manifest = .ok db'.engine.manifest ↔
      fragment = [] ∨ recordsOf calls db.engine.manifest = [] ∨
        FramesTo (fragment ++ manifestLog (recordsOf calls db.engine.manifest))
          db.engine.manifest db'.engine.manifest := by
  have short : fragment.length < manifestRecordLen := by
    have whole := congrArg List.length cut
    rw [last.length_encode, List.length_append] at whole
    have := List.length_pos_of_ne_nil strict
    omega
  have replayed : Manifest.replayAll complete .initial = .ok db.engine.manifest := by
    rw [← Manifest.recover_log complete short, ← file]
    exact opened
  obtain ⟨written, effect⟩ := callAll_of_ok updated
  rw [recover_eq_ok_iff, written, file, List.append_assoc, framesTo_log_append replayed]
  refine ⟨fun frames => .inr (.inr frames), ?_⟩
  rintro (rfl | none | frames)
  · rw [List.nil_append, ← List.append_nil (manifestLog _), framesTo_log_append effect,
      framesTo_of_short (by decide)]
  · rw [none] at effect ⊢
    rw [manifestLog, List.flatMap_nil, List.append_nil, framesTo_of_short short]
    exact Except.ok.inj effect
  · exact frames

/-- A database with an open manifest and nothing else. -/
def manifestDb (bytes : Bytes) (manifest : Manifest) : Db smallTables where
  disk := { Disk.empty smallTables with manifest := bytes }
  engine := Engine.opened Options.forTest manifest (Version.withMaxLevels smallTables 4) MemTable.new
  faults := []

/-- The condition is met by a manifest cut between two records. -/
theorem torn_manifest_recovers_clean_cut :
    Manifest.recover
        (manifestLog [.setNextTableId 2] ++ (ManifestRecord.addTable 1 0).encode) =
      .ok ⟨2, [(1, 0)]⟩ :=
  (torn_manifest_recovers_iff
    (manifestDb (manifestLog [.setNextTableId 2]) ⟨2, []⟩)
    (manifestDb (manifestLog [.setNextTableId 2] ++ (ManifestRecord.addTable 1 0).encode)
      ⟨2, [(1, 0)]⟩)
    [.setNextTableId 2] (.addTable 1 0) [] (ManifestRecord.addTable 1 0).encode [.addTable 1 0]
    rfl (by decide +kernel) (List.append_nil _).symm (by decide +kernel) rfl).mpr (.inl rfl)

/-- **An update behind a torn record makes the manifest unreadable.**  The record
that adds table 1 was cut after five bytes; the manifest is opened, and the table
is added once more: the manifest cannot be opened again. -/
theorem torn_manifest_lost :
    ∃ db db' : Db smallTables,
      db.disk.manifest = manifestLog [.setNextTableId 2] ++
        (ManifestRecord.addTable 1 0).encode.take 5 ∧
      Manifest.recover db.disk.manifest = .ok db.engine.manifest ∧
      callAll [.addTable 1 0] db = .ok () db' ∧
      Manifest.recover db'.disk.manifest = .error .invalidManifest :=
  ⟨manifestDb (manifestLog [.setNextTableId 2] ++ (ManifestRecord.addTable 1 0).encode.take 5)
      ⟨2, []⟩,
    manifestDb (manifestLog [.setNextTableId 2] ++ (ManifestRecord.addTable 1 0).encode.take 5 ++
      (ManifestRecord.addTable 1 0).encode) ⟨2, [(1, 0)]⟩,
    rfl, by decide +kernel, rfl, by decide +kernel⟩

end LsmStore
