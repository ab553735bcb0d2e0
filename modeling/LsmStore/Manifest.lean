import LsmStore.Crc

/-!
# The manifest

The manifest is a log of which tables make up the database and which level
each belongs to.  Every record has the same length; recovery replays complete
records from the start, ignores a trailing fragment shorter than a record, and
reports a complete but damaged record as an error.

`recover_log` says that recovery of a log of complete records, followed by any
fragment shorter than a record, is the replay of these records.
-/

set_option autoImplicit false

namespace LsmStore

/-- A single manifest mutation. -/
inductive ManifestRecord where
  | addTable (id : UInt64) (level : UInt32)
  | removeTable (id : UInt64)
  | setNextTableId (id : UInt64)
  deriving DecidableEq

/-- The live tables, in the order they were added, and the next table id. -/
structure Manifest where
  nextTableId : UInt64
  tables : List (UInt64 × UInt32)
  deriving DecidableEq

def typeAdd : UInt8 := 1
def typeRemove : UInt8 := 2
def typeNextId : UInt8 := 3

/-- Checksum, type, id and level. -/
def manifestRecordLen : Nat := 4 + 1 + 8 + 4

namespace ManifestRecord

/-- The type byte, id and level fields of a record. -/
def fields : ManifestRecord → UInt8 × UInt64 × UInt32
  | .addTable id level => (typeAdd, id, level)
  | .removeTable id => (typeRemove, id, 0)
  | .setNextTableId id => (typeNextId, id, 0)

/-- The checksummed part of a record. -/
def body (record : ManifestRecord) : Bytes :=
  let (kind, id, level) := record.fields
  kind :: (u64ToLeBytes id ++ u32ToLeBytes level)

/-- A record as it is written. -/
def encode (record : ManifestRecord) : Bytes :=
  u32ToLeBytes (crc32 record.body) ++ record.body

/-- Reads the checksummed part of a record. -/
def decodeBody (body : Bytes) : Except Error ManifestRecord :=
  if body.length ≠ 13 then .error .invalidManifest
  else
    let kind := body.getD 0 0
    let id := readU64Le ((body.drop 1).take 8)
    let level := readU32Le ((body.drop 9).take 4)
    if kind = typeAdd then .ok (.addTable id level)
    else if kind = typeRemove then .ok (.removeTable id)
    else if kind = typeNextId then .ok (.setNextTableId id)
    else .error .invalidManifest

end ManifestRecord

namespace Manifest

/-- The manifest of an empty log. -/
def initial : Manifest := ⟨1, []⟩

/-- Whether a table id is in the live list. -/
def lists (manifest : Manifest) (id : UInt64) : Bool := manifest.tables.any (·.1 == id)

/-- Replays one record; a second addition of a live id is refused. -/
def replayRecord (manifest : Manifest) : ManifestRecord → Except Error Manifest
  | .addTable id level =>
      if manifest.lists id then .error .invalidManifest
      else .ok { manifest with tables := manifest.tables ++ [(id, level)] }
  | .removeTable id =>
      .ok { manifest with tables := manifest.tables.filter fun table => table.1 != id }
  | .setNextTableId id => .ok { manifest with nextTableId := id }

/-- The loop of `recover`, over the bytes not yet read. -/
def recoverFrom : Nat → Bytes → Manifest → Except Error Manifest
  | 0, _, manifest => .ok manifest
  | fuel + 1, bytes, manifest =>
      if bytes.length < manifestRecordLen then .ok manifest
      else
        let record := bytes.take manifestRecordLen
        let checksum := readU32Le (record.take 4)
        if crc32 (record.drop 4) ≠ checksum then .error .invalidManifest
        else
          match ManifestRecord.decodeBody (record.drop 4) with
          | .error cause => .error cause
          | .ok decoded =>
              match manifest.replayRecord decoded with
              | .error cause => .error cause
              | .ok next => recoverFrom fuel (bytes.drop manifestRecordLen) next

/-- Rebuilds the in-memory state from the log. -/
def recover (bytes : Bytes) : Except Error Manifest := recoverFrom bytes.length bytes initial

/-- Replays records in order. -/
def replayAll : List ManifestRecord → Manifest → Except Error Manifest
  | [], manifest => .ok manifest
  | record :: rest, manifest =>
      match manifest.replayRecord record with
      | .error cause => .error cause
      | .ok next => replayAll rest next

end Manifest

/-- The bytes of a list of records. -/
def manifestLog (records : List ManifestRecord) : Bytes := records.flatMap ManifestRecord.encode

/-! ## Records -/

namespace ManifestRecord

@[simp] theorem length_body (record : ManifestRecord) : record.body.length = 13 := by
  simp [body]

@[simp] theorem length_encode (record : ManifestRecord) :
    record.encode.length = manifestRecordLen := by
  simp [encode, manifestRecordLen]

theorem decodeBody_body (record : ManifestRecord) : decodeBody record.body = .ok record := by
  have length := length_body record
  have idField : readU64Le ((record.body.drop 1).take 8) = record.fields.2.1 := by
    have field : (record.body.drop 1).take 8 = u64ToLeBytes record.fields.2.1 := by
      rw [body, List.drop_succ_cons, List.drop_zero,
        ← length_u64ToLeBytes record.fields.2.1, List.take_left]
    rw [field, readU64Le_u64ToLeBytes]
  have levelField : readU32Le ((record.body.drop 9).take 4) = record.fields.2.2 := by
    have field : (record.body.drop 9).take 4 = u32ToLeBytes record.fields.2.2 := by
      rw [body, List.drop_succ_cons, ← length_u64ToLeBytes record.fields.2.1, List.drop_left,
        List.take_of_length_le (by simp)]
    rw [field, readU32Le_u32ToLeBytes]
  rw [decodeBody, if_neg (by simp [length])]
  simp only [idField, levelField]
  cases record <;> rfl

end ManifestRecord

/-! ## Recovery -/

namespace Manifest

theorem recoverFrom_encode_append (record : ManifestRecord) (fuel : Nat) (rest : Bytes)
    (manifest : Manifest) :
    recoverFrom (fuel + 1) (record.encode ++ rest) manifest =
      match manifest.replayRecord record with
      | .error cause => .error cause
      | .ok next => recoverFrom fuel rest next := by
  have first : (record.encode ++ rest).take manifestRecordLen = record.encode := by
    rw [← record.length_encode, List.take_left]
  have others : (record.encode ++ rest).drop manifestRecordLen = rest := by
    rw [← record.length_encode, List.drop_left]
  have checksum : readU32Le (record.encode.take 4) = crc32 record.body := by
    rw [ManifestRecord.encode, ← length_u32ToLeBytes (crc32 record.body), List.take_left,
      readU32Le_u32ToLeBytes]
  have body : record.encode.drop 4 = record.body := by
    rw [ManifestRecord.encode, ← length_u32ToLeBytes (crc32 record.body), List.drop_left]
  have long : ¬ (record.encode ++ rest).length < manifestRecordLen := by
    rw [List.length_append, record.length_encode]
    omega
  simp only [recoverFrom, if_neg long, first, others, checksum, body, ne_eq, not_true_eq_false,
    if_false, ManifestRecord.decodeBody_body]

/-- Replaying with enough fuel reads every record and ignores the fragment. -/
theorem recoverFrom_log (records : List ManifestRecord) {fragment : Bytes}
    (short : fragment.length < manifestRecordLen) (manifest : Manifest) {fuel : Nat}
    (enough : records.length ≤ fuel) :
    recoverFrom fuel (manifestLog records ++ fragment) manifest = replayAll records manifest := by
  induction records generalizing manifest fuel with
  | nil =>
      cases fuel with
      | zero => rfl
      | succ fuel =>
          change recoverFrom (fuel + 1) fragment manifest = .ok manifest
          rw [recoverFrom, if_pos short]
  | cons record rest ih =>
      obtain ⟨fuel, rfl⟩ : ∃ less, fuel = less + 1 := ⟨fuel - 1, by simp at enough; omega⟩
      have log : manifestLog (record :: rest) ++ fragment =
          record.encode ++ (manifestLog rest ++ fragment) := by
        simp [manifestLog]
      rw [log, recoverFrom_encode_append, replayAll]
      cases manifest.replayRecord record with
      | error cause => rfl
      | ok next => exact ih next (by simpa using enough)

theorem length_le_manifestLog (records : List ManifestRecord) :
    records.length ≤ (manifestLog records).length := by
  induction records with
  | nil => exact Nat.zero_le _
  | cons record rest ih =>
      have log : manifestLog (record :: rest) = record.encode ++ manifestLog rest := rfl
      rw [log, List.length_append, record.length_encode, List.length_cons, manifestRecordLen]
      omega

/-- **Recovery replays the complete records and ignores a torn one.** -/
theorem recover_log (records : List ManifestRecord) {fragment : Bytes}
    (short : fragment.length < manifestRecordLen) :
    recover (manifestLog records ++ fragment) = replayAll records initial := by
  refine recoverFrom_log records short initial ?_
  rw [List.length_append]
  exact Nat.le_trans (length_le_manifestLog records) (Nat.le_add_right _ _)

theorem replayAll_append (first second : List ManifestRecord) (manifest : Manifest) :
    replayAll (first ++ second) manifest =
      match replayAll first manifest with
      | .error cause => .error cause
      | .ok next => replayAll second next := by
  induction first generalizing manifest with
  | nil => rfl
  | cons record rest ih =>
      rw [List.cons_append, replayAll, replayAll]
      cases manifest.replayRecord record with
      | error cause => rfl
      | ok next => exact ih next

theorem lists_iff {manifest : Manifest} {id : UInt64} :
    manifest.lists id = true ↔ id ∈ manifest.tables.map (·.1) := by
  simp [lists]

end Manifest

theorem manifestLog_append (first second : List ManifestRecord) :
    manifestLog (first ++ second) = manifestLog first ++ manifestLog second := by
  simp [manifestLog]

end LsmStore
