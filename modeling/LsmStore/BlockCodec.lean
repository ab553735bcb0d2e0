import LsmStore.Cache
import LsmStore.TableFormat

/-!
# Data blocks and index blocks

A table file is made of data blocks, each a run of entries with a checksum, and
of an index block that says which keys a data block holds and where it lies in
the file.  Both survive writing and reading as long as their lengths fit the
32-bit fields that hold them.
-/

set_option autoImplicit false

namespace LsmStore

open Foundation

def typeValue : UInt8 := 1
def typeTombstone : UInt8 := 2

/-! ## Entries -/

/-- An entry as it is written into a data block. -/
def encodeEntry (key : Key) : Entry → Bytes
  | .value value =>
      typeValue :: (lenToLeBytes key.length ++ lenToLeBytes value.length ++ key ++ value)
  | .tombstone => typeTombstone :: (lenToLeBytes key.length ++ u32ToLeBytes 0 ++ key)

/-- The entries of a block, one behind the other. -/
def encodeEntries (block : BlockData) : Bytes :=
  block.flatMap fun pair => encodeEntry pair.1 pair.2

/-- Reads one entry off the bytes and returns the bytes behind it. -/
def decodeEntry : Bytes → Except Error ((Key × Entry) × Bytes)
  | [] => .error .corruptedRecord
  | kind :: fields =>
      if (kind :: fields).length < 9 then .error .corruptedRecord
      else
        let keyLen := (readU32Le (fields.take 4)).toNat
        let valueLen := (readU32Le ((fields.drop 4).take 4)).toNat
        let rest := fields.drop 8
        if rest.length < keyLen + valueLen then .error .corruptedRecord
        else
          let key := rest.take keyLen
          let rest := rest.drop keyLen
          if kind = typeValue then
            .ok ((key, .value (rest.take valueLen)), rest.drop valueLen)
          else if kind = typeTombstone then .ok ((key, .tombstone), rest.drop valueLen)
          else .error .corruptedRecord

/-- Reads a number of entries. -/
def decodeEntries : Nat → Bytes → Except Error BlockData
  | 0, _ => .ok []
  | count + 1, bytes =>
      match decodeEntry bytes with
      | .error cause => .error cause
      | .ok (pair, rest) =>
          match decodeEntries count rest with
          | .error cause => .error cause
          | .ok block => .ok (pair :: block)

/-! ## Data blocks -/

/-- A data block as it is written: the number of entries, the entries, a checksum. -/
def flushDataBlock (body : Bytes) (count : UInt32) : Bytes :=
  let block := u32ToLeBytes count ++ body
  block ++ u32ToLeBytes (crc32 block)

/-- Reads the data block of the given length at an offset of a file. -/
def readDataBlock (file : Bytes) (offset : UInt64) (length : UInt32) : Except Error BlockData :=
  let bytes := (file.drop offset.toNat).take length.toNat
  if bytes.length < length.toNat then .error (.io "failed to fill whole buffer")
  else if bytes.length < 8 then .error .corruptedRecord
  else
    let checksum := readU32Le (bytes.drop (bytes.length - 4))
    let body := bytes.take (bytes.length - 4)
    if crc32 body ≠ checksum then .error .invalidChecksum
    else decodeEntries (readU32Le (body.take 4)).toNat (body.drop 4)

/-! ## Index blocks -/

/-- The key range of a data block and where that block lies. -/
structure IndexEntry where
  firstKey : Key
  lastKey : Key
  offset : UInt64
  length : UInt32
  deriving DecidableEq

namespace IndexEntry

/-- An index row as it is written. -/
def encode (entry : IndexEntry) : Bytes :=
  lenToLeBytes entry.firstKey.length ++ entry.firstKey ++
    (lenToLeBytes entry.lastKey.length ++ entry.lastKey) ++
    u64ToLeBytes entry.offset ++ u32ToLeBytes entry.length

/-- Reads one index row off the bytes and returns the bytes behind it. -/
def decode (bytes : Bytes) : Except Error (IndexEntry × Bytes) :=
  if bytes.length < 4 then .error .corruptedRecord
  else
    let firstLen := (readU32Le (bytes.take 4)).toNat
    let rest := bytes.drop 4
    if rest.length < firstLen + 4 then .error .corruptedRecord
    else
      let firstKey := rest.take firstLen
      let rest := rest.drop firstLen
      let lastLen := (readU32Le (rest.take 4)).toNat
      let rest := rest.drop 4
      if rest.length < lastLen + 12 then .error .corruptedRecord
      else
        let lastKey := rest.take lastLen
        let rest := rest.drop lastLen
        .ok (⟨firstKey, lastKey, readU64Le (rest.take 8), readU32Le ((rest.drop 8).take 4)⟩,
          rest.drop 12)

end IndexEntry

/-- The index block: the number of rows, the rows, a checksum. -/
def encodeIndex (index : List IndexEntry) : Bytes :=
  let buf := lenToLeBytes index.length ++ index.flatMap IndexEntry.encode
  buf ++ u32ToLeBytes (crc32 buf)

/-- Reads a number of index rows. -/
def decodeRows : Nat → Bytes → Except Error (List IndexEntry)
  | 0, _ => .ok []
  | count + 1, bytes =>
      match IndexEntry.decode bytes with
      | .error cause => .error cause
      | .ok (entry, rest) =>
          match decodeRows count rest with
          | .error cause => .error cause
          | .ok index => .ok (entry :: index)

/-- Reads an index block. -/
def decodeIndex (bytes : Bytes) : Except Error (List IndexEntry) :=
  if bytes.length < 8 then .error .corruptedRecord
  else
    let checksum := readU32Le (bytes.drop (bytes.length - 4))
    let body := bytes.take (bytes.length - 4)
    if crc32 body ≠ checksum then .error .invalidChecksum
    else decodeRows (readU32Le (body.take 4)).toNat (body.drop 4)

/-! ## Reading back an entry -/

theorem length_encodeEntry (key : Key) (entry : Entry) :
    (encodeEntry key entry).length = 9 + key.length + entry.valueLen := by
  cases entry <;> simp [encodeEntry, Entry.valueLen] <;> omega

@[simp] theorem encodeEntries_nil : encodeEntries [] = [] := rfl

@[simp] theorem encodeEntries_cons (pair : Key × Entry) (block : BlockData) :
    encodeEntries (pair :: block) = encodeEntry pair.1 pair.2 ++ encodeEntries block :=
  List.flatMap_cons

@[simp] theorem encodeEntries_append (front back : BlockData) :
    encodeEntries (front ++ back) = encodeEntries front ++ encodeEntries back :=
  List.flatMap_append

/-- A block has at least as many bytes as entries. -/
theorem length_le_length_encodeEntries (block : BlockData) :
    block.length ≤ (encodeEntries block).length := by
  induction block with
  | nil => exact Nat.zero_le _
  | cons pair block ih =>
      rw [encodeEntries_cons, List.length_append, length_encodeEntry, List.length_cons]
      omega

/-- An entry of a block is no longer than the block. -/
theorem length_encodeEntry_le {block : BlockData} {pair : Key × Entry} (member : pair ∈ block) :
    (encodeEntry pair.1 pair.2).length ≤ (encodeEntries block).length := by
  induction block with
  | nil => cases member
  | cons head block ih =>
      rw [encodeEntries_cons, List.length_append]
      rcases List.mem_cons.mp member with rfl | later
      · exact Nat.le_add_right _ _
      · exact (ih later).trans (Nat.le_add_left _ _)

/-- Two four-byte fields, skipped together. -/
theorem drop_two_fields {first second : Bytes} (firstFour : first.length = 4)
    (secondFour : second.length = 4) (rest : Bytes) :
    (first ++ (second ++ rest)).drop 8 = rest := by
  rw [← List.append_assoc]
  exact List.drop_left' (by rw [List.length_append, firstFour, secondFour])

/-- An entry is read back as it was written. -/
theorem decodeEntry_encodeEntry {key : Key} {entry : Entry}
    (fits : (encodeEntry key entry).length < 2 ^ 32) (rest : Bytes) :
    decodeEntry (encodeEntry key entry ++ rest) = .ok ((key, entry), rest) := by
  rw [length_encodeEntry] at fits
  have keyFits : key.length < 2 ^ 32 := by omega
  cases entry with
  | value value =>
      have valueFits : value.length < 2 ^ 32 := by
        simp only [Entry.valueLen] at fits
        omega
      have behind := drop_two_fields (length_lenToLeBytes key.length)
        (length_lenToLeBytes value.length) (key ++ (value ++ rest))
      simp only [encodeEntry, List.cons_append, List.append_assoc, decodeEntry,
        take_lenToLeBytes_append, drop_lenToLeBytes_append, behind,
        toNat_readU32Le_lenToLeBytes keyFits, toNat_readU32Le_lenToLeBytes valueFits,
        List.take_left, List.drop_left, if_true]
      rw [if_neg (by simp; omega), if_neg (by simp)]
  | tombstone =>
      have behind := drop_two_fields (length_lenToLeBytes key.length)
        (length_u32ToLeBytes 0) (key ++ rest)
      have different : typeTombstone ≠ typeValue := by decide
      simp only [encodeEntry, List.cons_append, List.append_assoc, decodeEntry,
        take_lenToLeBytes_append, drop_lenToLeBytes_append, take_u32ToLeBytes_append, behind,
        toNat_readU32Le_lenToLeBytes keyFits, readU32Le_u32ToLeBytes, UInt32.toNat_zero,
        List.take_left, List.drop_left, List.drop_zero, if_neg different, if_true]
      rw [if_neg (by simp; omega), if_neg (by simp)]

theorem decodeEntries_encodeEntries {block : BlockData}
    (fits : (encodeEntries block).length < 2 ^ 32) :
    decodeEntries block.length (encodeEntries block) = .ok block := by
  induction block with
  | nil => rfl
  | cons pair block ih =>
      rw [encodeEntries_cons, List.length_append] at fits
      rw [List.length_cons, encodeEntries_cons, decodeEntries,
        decodeEntry_encodeEntry (by omega)]
      simp only [ih (by omega)]

/-! ## Reading back a block -/

/-- A data block written from its entries. -/
def blockBytes (block : BlockData) : Bytes :=
  flushDataBlock (encodeEntries block) (UInt32.ofNat block.length)

theorem length_flushDataBlock (body : Bytes) (count : UInt32) :
    (flushDataBlock body count).length = body.length + 8 := by
  simp only [flushDataBlock, List.length_append, length_u32ToLeBytes]
  omega

theorem length_blockBytes (block : BlockData) :
    (blockBytes block).length = (encodeEntries block).length + 8 :=
  length_flushDataBlock _ _

/-- What is left of bytes that end with a checksum, and the checksum. -/
theorem split_checksum (body : Bytes) (checksum : UInt32) :
    (body ++ u32ToLeBytes checksum).take ((body ++ u32ToLeBytes checksum).length - 4) = body ∧
      (body ++ u32ToLeBytes checksum).drop ((body ++ u32ToLeBytes checksum).length - 4) =
        u32ToLeBytes checksum := by
  have length : (body ++ u32ToLeBytes checksum).length - 4 = body.length := by
    rw [List.length_append, length_u32ToLeBytes, Nat.add_sub_cancel]
  rw [length]
  exact ⟨List.take_left, List.drop_left⟩

/-- **A data block is read back as it was written**, wherever it lies in a file. -/
theorem readDataBlock_blockBytes {block : BlockData} (fits : (blockBytes block).length < 2 ^ 32)
    {front : Bytes} (near : front.length < 2 ^ 64) (back : Bytes) :
    readDataBlock (front ++ blockBytes block ++ back) (UInt64.ofNat front.length)
      (UInt32.ofNat (blockBytes block).length) = .ok block := by
  have offset : (UInt64.ofNat front.length).toNat = front.length := by
    rw [UInt64.toNat_ofNat', Nat.mod_eq_of_lt near]
  have length : (UInt32.ofNat (blockBytes block).length).toNat = (blockBytes block).length := by
    rw [UInt32.toNat_ofNat', Nat.mod_eq_of_lt fits]
  have window : ((front ++ blockBytes block ++ back).drop front.length).take
      (blockBytes block).length = blockBytes block := by
    rw [List.append_assoc, List.drop_left, List.take_left]
  have entriesFit : (encodeEntries block).length < 2 ^ 32 := by
    rw [length_blockBytes] at fits
    omega
  have count : (UInt32.ofNat block.length).toNat = block.length := by
    have few := length_le_length_encodeEntries block
    rw [UInt32.toNat_ofNat', Nat.mod_eq_of_lt (by omega)]
  obtain ⟨body, checksum⟩ := split_checksum
    (u32ToLeBytes (UInt32.ofNat block.length) ++ encodeEntries block)
    (crc32 (u32ToLeBytes (UInt32.ofNat block.length) ++ encodeEntries block))
  simp only [readDataBlock, offset, length, window]
  rw [if_neg (lt_irrefl _), if_neg (by rw [length_blockBytes]; omega)]
  simp only [blockBytes, flushDataBlock, body, checksum, readU32Le_u32ToLeBytes,
    take_u32ToLeBytes_append, drop_u32ToLeBytes_append, count]
  rw [if_neg (not_not_intro rfl), decodeEntries_encodeEntries entriesFit]

/-! ## Reading back an index -/

theorem IndexEntry.decode_encode {entry : IndexEntry} (firstFits : entry.firstKey.length < 2 ^ 32)
    (lastFits : entry.lastKey.length < 2 ^ 32) (rest : Bytes) :
    IndexEntry.decode (entry.encode ++ rest) = .ok (entry, rest) := by
  have behind : (u64ToLeBytes entry.offset ++ (u32ToLeBytes entry.length ++ rest)).drop 12 =
      rest := by
    rw [← List.append_assoc]
    exact List.drop_left' (by simp)
  simp only [IndexEntry.encode, List.append_assoc, IndexEntry.decode, take_lenToLeBytes_append,
    drop_lenToLeBytes_append, toNat_readU32Le_lenToLeBytes firstFits,
    toNat_readU32Le_lenToLeBytes lastFits, List.take_left, List.drop_left,
    take_u64ToLeBytes_append, drop_u64ToLeBytes_append, take_u32ToLeBytes_append, behind,
    readU64Le_u64ToLeBytes, readU32Le_u32ToLeBytes]
  rw [if_neg (by simp), if_neg (by simp), if_neg (by simp; omega)]

theorem decodeRows_encode {index : List IndexEntry}
    (fits : ∀ entry ∈ index, entry.firstKey.length < 2 ^ 32 ∧ entry.lastKey.length < 2 ^ 32) :
    decodeRows index.length (index.flatMap IndexEntry.encode) = .ok index := by
  induction index with
  | nil => rfl
  | cons entry index ih =>
      have first := fits entry List.mem_cons_self
      rw [List.length_cons, List.flatMap_cons, decodeRows,
        IndexEntry.decode_encode first.1 first.2]
      simp only [ih fun other member => fits other (List.mem_cons_of_mem _ member)]

theorem length_encodeIndex (index : List IndexEntry) :
    (encodeIndex index).length = 8 + (index.flatMap IndexEntry.encode).length := by
  simp only [encodeIndex, List.length_append, length_lenToLeBytes, length_u32ToLeBytes]
  omega

/-- **An index block is read back as it was written.** -/
theorem decodeIndex_encodeIndex {index : List IndexEntry} (few : index.length < 2 ^ 32)
    (fits : ∀ entry ∈ index, entry.firstKey.length < 2 ^ 32 ∧ entry.lastKey.length < 2 ^ 32) :
    decodeIndex (encodeIndex index) = .ok index := by
  obtain ⟨body, checksum⟩ := split_checksum
    (lenToLeBytes index.length ++ index.flatMap IndexEntry.encode)
    (crc32 (lenToLeBytes index.length ++ index.flatMap IndexEntry.encode))
  rw [decodeIndex, if_neg (by rw [length_encodeIndex]; omega)]
  simp only [encodeIndex, body, checksum, readU32Le_u32ToLeBytes, take_lenToLeBytes_append,
    drop_lenToLeBytes_append, toNat_readU32Le_lenToLeBytes few]
  rw [if_neg (not_not_intro rfl), decodeRows_encode fits]

end LsmStore
