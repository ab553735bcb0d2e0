import LsmStore.BlockCodec
import LsmStore.Foundation.BinarySearch

/-!
# Table files

A table file holds data blocks, an index block, a Bloom filter and a footer
that says where the index and the filter are.  Creating a table cuts its sorted
entries into data blocks; opening it reads footer, index and filter back; a
lookup finds the block that may hold the key in the index and the key in that
block, and an iterator reads one block after the other.

The bytes of a table are described by its parts (`TableParts`): the blocks its
entries were cut into and its filter.  Creating a table yields the bytes and
the handle of its parts, and everything that is read from these bytes is what
the parts say.
-/

set_option autoImplicit false

namespace LsmStore

open Foundation

/-- On-disk magic number (`LSM1`) stored in the footer. -/
def magic : UInt32 := 0x4C534D31
def footerLen : Nat := 48
def formatVersion : UInt32 := 1

/-- The largest value of the type `u32`. -/
def u32Max : Nat := 2 ^ 32 - 1

/-- What an open table keeps in memory. -/
structure TableHandle where
  index : List IndexEntry
  bloom : BloomFilter
  smallest : Key
  largest : Key
  sizeBytes : Nat
  deriving DecidableEq

/-! ## Creating a table -/

/-- The local state of the loop that cuts entries into data blocks. -/
structure TableWriter where
  file : Bytes
  index : List IndexEntry
  blockBuf : Bytes
  blockFirst : Option Key
  blockLast : Key
  blockCount : Nat
  offset : Nat

namespace TableWriter

/-- Nothing written yet. -/
def new : TableWriter := ⟨[], [], [], none, [], 0, 0⟩

/-- Writes the buffered entries as a data block and enters it into the index. -/
def cut (writer : TableWriter) : Except Failure TableWriter :=
  let block := flushDataBlock writer.blockBuf (UInt32.ofNat writer.blockCount)
  let length := UInt32.ofNat block.length
  if writer.offset + length.toNat > u64Max then .error .panic
  else
    .ok
      { file := writer.file ++ block
        index := writer.index ++
          [⟨writer.blockFirst.getD [], writer.blockLast, UInt64.ofNat writer.offset, length⟩]
        blockBuf := []
        blockFirst := none
        blockLast := []
        blockCount := 0
        offset := writer.offset + length.toNat }

/-- Buffers an entry and cuts a block once the buffer has reached the block size. -/
def push (blockSize : Nat) (writer : TableWriter) (pair : Key × Entry) :
    Except Failure TableWriter :=
  if writer.blockCount + 1 > u32Max then .error .panic
  else
    let buffered :=
      { writer with
        blockFirst := some (writer.blockFirst.getD pair.1)
        blockBuf := writer.blockBuf ++ encodeEntry pair.1 pair.2
        blockCount := writer.blockCount + 1
        blockLast := pair.1 }
    if buffered.blockBuf.length ≥ blockSize then buffered.cut else .ok buffered

/-- Buffers entries in order. -/
def pushAll (blockSize : Nat) : List (Key × Entry) → TableWriter → Except Failure TableWriter
  | [], writer => .ok writer
  | pair :: rest, writer =>
      match writer.push blockSize pair with
      | .error failure => .error failure
      | .ok next => pushAll blockSize rest next

/-- Cuts the last block; a table without entries gets one empty block. -/
def finish (writer : TableWriter) : Except Failure TableWriter :=
  if writer.blockCount > 0 ∨ writer.index = [] then writer.cut else .ok writer

end TableWriter

/-- The footer: where the index and the filter are, version, checksum and magic number. -/
def encodeFooter (indexOffset indexLen bloomOffset bloomLen : Nat) : Bytes :=
  let footer := u64ToLeBytes (UInt64.ofNat indexOffset) ++ u64ToLeBytes (UInt64.ofNat indexLen) ++
    u64ToLeBytes (UInt64.ofNat bloomOffset) ++ u64ToLeBytes (UInt64.ofNat bloomLen) ++
    u32ToLeBytes formatVersion ++ u32ToLeBytes 0
  footer ++ u32ToLeBytes (crc32 footer) ++ u32ToLeBytes magic

/-- The filter of a table's keys. -/
def tableFilter (sizing : BloomSizing) (bloomFp : Float) (collected : List (Key × Entry)) :
    BloomFilter :=
  (BloomFilter.new sizing (max collected.length 1) bloomFp).insertAll (collected.map (·.1))

/-- The bytes of a new table and its handle. -/
def TableHandle.create (sizing : BloomSizing) (entries : List (Key × Entry)) (bloomFp : Float)
    (blockSize : Nat) : Except Failure (Bytes × TableHandle) :=
  let collected := entries.insertionSort fun first second => first.1 ≤ second.1
  let bloom := tableFilter sizing bloomFp collected
  match TableWriter.new.pushAll blockSize collected with
  | .error failure => .error failure
  | .ok writer =>
      match writer.finish with
      | .error failure => .error failure
      | .ok writer =>
          let indexOffset := writer.offset
          let indexBytes := encodeIndex writer.index
          if indexOffset + indexBytes.length > u64Max then .error .panic
          else
            let bloomOffset := indexOffset + indexBytes.length
            let bloomBytes := bloom.encode
            let file := writer.file ++ indexBytes ++ bloomBytes ++
              encodeFooter indexOffset indexBytes.length bloomOffset bloomBytes.length
            .ok (file, ⟨writer.index, bloom, firstKey collected, lastKey collected, file.length⟩)

/-! ## Opening a table -/

/-- Opens a completed table file. -/
def TableHandle.openFile (file : Bytes) : Except Error TableHandle :=
  let sizeBytes := file.length
  if sizeBytes < footerLen then .error .corruptedRecord
  else
    let footer := file.drop (sizeBytes - footerLen)
    if readU32Le ((footer.drop 44).take 4) ≠ magic then .error .corruptedRecord
    else if crc32 (footer.take 40) ≠ readU32Le ((footer.drop 40).take 4) then
      .error .invalidChecksum
    else if readU32Le ((footer.drop 32).take 4) ≠ formatVersion then .error .corruptedRecord
    else
      let indexOffset := (readU64Le (footer.take 8)).toNat
      let indexLen := (readU64Le ((footer.drop 8).take 8)).toNat
      let bloomOffset := (readU64Le ((footer.drop 16).take 8)).toNat
      let bloomLen := (readU64Le ((footer.drop 24).take 8)).toNat
      if indexOffset + indexLen > u64Max ∨ indexOffset + indexLen > sizeBytes ∨
          bloomOffset + bloomLen > u64Max ∨ bloomOffset + bloomLen > sizeBytes then
        .error .corruptedRecord
      else
        match decodeIndex ((file.drop indexOffset).take indexLen) with
        | .error cause => .error cause
        | .ok index =>
            match BloomFilter.decode ((file.drop bloomOffset).take bloomLen) with
            | .error cause => .error cause
            | .ok bloom =>
                .ok
                  { index
                    bloom
                    smallest := (index.head?.map (·.firstKey)).getD []
                    largest := (index.getLast?.map (·.lastKey)).getD []
                    sizeBytes }

/-! ## Looking a key up -/

/-- Reads the data block of an index row from a table's file. -/
def readBlock (file : Option Bytes) (entry : IndexEntry) : Except Error BlockData :=
  match file with
  | none => .error (.io "no such file")
  | some bytes => readDataBlock bytes entry.offset entry.length

/-- How the key range of a block compares with a key. -/
def IndexEntry.compareKey (key : Key) (entry : IndexEntry) : Ordering :=
  if key < entry.firstKey then .gt else if key > entry.lastKey then .lt else .eq

/-- How the key of an entry compares with a key. -/
def compareEntry (key : Key) (pair : Key × Entry) : Ordering :=
  if pair.1 < key then .lt else if pair.1 = key then .eq else .gt

/-- The entry of a key in a block. -/
def searchBlock (block : BlockData) (key : Key) : Option Entry :=
  (binarySearchBy (compareEntry key) block).map fun position => (block.get position).2

namespace TableHandle

/-- Whether a key falls into the table's range; an empty table has none. -/
def containsRange (handle : TableHandle) (key : Key) : Bool :=
  if handle.smallest = [] ∧ handle.largest = [] ∧ handle.index.length = 1 then false
  else decide (handle.smallest ≤ key ∧ key ≤ handle.largest)

/-- The block whose key range contains a key. -/
def blockForKey (handle : TableHandle) (key : Key) : Option (Fin handle.index.length) :=
  binarySearchBy (IndexEntry.compareKey key) handle.index

/-- A data block, from the cache if it is there. -/
def loadBlock (id : UInt64) (handle : TableHandle) (file : Option Bytes)
    (position : Fin handle.index.length) (cache : Option BlockCache) :
    Except Error BlockData × Option BlockCache :=
  let entry := handle.index.get position
  match cache with
  | none => (readBlock file entry, none)
  | some cache =>
      let key : BlockKey := ⟨id, entry.offset⟩
      match cache.get key with
      | (some block, cache) => (.ok block, some cache)
      | (none, cache) =>
          match readBlock file entry with
          | .error cause => (.error cause, some cache)
          | .ok block => (.ok block, some (cache.insert key block))

/-- Looks a key up, through a cache if there is one. -/
def get (id : UInt64) (handle : TableHandle) (file : Option Bytes) (key : Key)
    (cache : Option BlockCache) : Except Error (Option Entry) × Option BlockCache :=
  if !handle.containsRange key then (.ok none, cache)
  else if !handle.bloom.mightContain key then (.ok none, cache)
  else
    match handle.blockForKey key with
    | none => (.ok none, cache)
    | some position =>
        match handle.loadBlock id file position cache with
        | (.error cause, cache) => (.error cause, cache)
        | (.ok block, cache) => (.ok (searchBlock block key), cache)

end TableHandle

/-! ## Iterating over a table -/

/-- A sequential iterator: the index rows of the blocks not yet read, and the
entries of the current block not yet returned. -/
structure TableIterator where
  remaining : List IndexEntry
  current : BlockData

namespace TableIterator

/-- Replaces the current block by the next one; a failed read leaves the block to be read. -/
def loadNextBlock (file : Option Bytes) : TableIterator → Except Error Unit × TableIterator
  | ⟨[], _⟩ => (.ok (), ⟨[], []⟩)
  | ⟨entry :: rest, _⟩ =>
      match readBlock file entry with
      | .error cause => (.error cause, ⟨entry :: rest, []⟩)
      | .ok block => (.ok (), ⟨rest, block⟩)

/-- An iterator over a table, with its first block loaded. -/
def new (handle : TableHandle) (file : Option Bytes) : Except Error TableIterator :=
  match loadNextBlock file ⟨handle.index, []⟩ with
  | (.error cause, _) => .error cause
  | (.ok (), iterator) => .ok iterator

/-- The loop of `next` over the blocks not yet read. -/
def nextFrom (file : Option Bytes) :
    List IndexEntry → BlockData → Option (Except Error (Key × Entry)) × TableIterator
  | remaining, item :: current => (some (.ok item), ⟨remaining, current⟩)
  | [], [] => (none, ⟨[], []⟩)
  | entry :: rest, [] =>
      match readBlock file entry with
      | .error cause => (some (.error cause), ⟨entry :: rest, []⟩)
      | .ok block => nextFrom file rest block

/-- The next entry, or the error of reading the block it is in. -/
def next (file : Option Bytes) (iterator : TableIterator) :
    Option (Except Error (Key × Entry)) × TableIterator :=
  nextFrom file iterator.remaining iterator.current

/-- The first items that `next` returns, up to an error. -/
def collect (file : Option Bytes) : Nat → TableIterator → List (Except Error (Key × Entry))
  | 0, _ => []
  | count + 1, iterator =>
      match iterator.next file with
      | (none, _) => []
      | (some (.error cause), _) => [.error cause]
      | (some (.ok item), iterator) => .ok item :: collect file count iterator

/-- The items of the blocks not yet read, up to an error. -/
def unread (file : Option Bytes) : List IndexEntry → List (Except Error (Key × Entry))
  | [] => []
  | entry :: rest =>
      match readBlock file entry with
      | .error cause => [.error cause]
      | .ok block => block.map .ok ++ unread file rest

/-- All items still to come, up to an error. -/
def items (file : Option Bytes) (iterator : TableIterator) : List (Except Error (Key × Entry)) :=
  iterator.current.map .ok ++ unread file iterator.remaining

/-- What `next` returns is the first item still to come. -/
theorem nextFrom_cases (file : Option Bytes) (remaining : List IndexEntry) (current : BlockData) :
    (items file ⟨remaining, current⟩ = [] ∧ (nextFrom file remaining current).1 = none) ∨
      (∃ cause, items file ⟨remaining, current⟩ = [.error cause] ∧
        (nextFrom file remaining current).1 = some (.error cause)) ∨
      ∃ item, items file ⟨remaining, current⟩ =
          .ok item :: items file (nextFrom file remaining current).2 ∧
        (nextFrom file remaining current).1 = some (.ok item) := by
  induction remaining generalizing current with
  | nil =>
      cases current with
      | nil => exact .inl ⟨rfl, rfl⟩
      | cons item current => exact .inr (.inr ⟨item, rfl, rfl⟩)
  | cons entry rest ih =>
      cases current with
      | cons item current => exact .inr (.inr ⟨item, rfl, rfl⟩)
      | nil =>
          cases read : readBlock file entry with
          | error cause =>
              refine .inr (.inl ⟨cause, ?_, ?_⟩)
              · simp [items, unread, read]
              · simp [nextFrom, read]
          | ok block =>
              have same : items file ⟨entry :: rest, []⟩ = items file ⟨rest, block⟩ := by
                simp [items, unread, read]
              have step : nextFrom file (entry :: rest) [] = nextFrom file rest block := by
                simp [nextFrom, read]
              rw [same, step]
              exact ih block

/-- **Iterating returns the items in order.** -/
theorem collect_eq_take (file : Option Bytes) (count : Nat) (iterator : TableIterator) :
    iterator.collect file count = (iterator.items file).take count := by
  induction count generalizing iterator with
  | zero => rfl
  | succ count ih =>
      obtain ⟨remaining, current⟩ := iterator
      have split : next file ⟨remaining, current⟩ = ((nextFrom file remaining current).1,
        (nextFrom file remaining current).2) := rfl
      rw [collect, split]
      rcases nextFrom_cases file remaining current with
        ⟨items, found⟩ | ⟨cause, items, found⟩ | ⟨item, items, found⟩
      · rw [items, found]
        rfl
      · rw [items, found, List.take_succ_cons, List.take_nil]
      · rw [items, found, List.take_succ_cons, ← ih]

/-- The items of a new iterator are those of all blocks. -/
theorem items_new {handle : TableHandle} {file : Option Bytes} {iterator : TableIterator}
    (isNew : new handle file = .ok iterator) : iterator.items file = unread file handle.index := by
  rw [new] at isNew
  cases index : handle.index with
  | nil =>
      rw [index] at isNew
      cases isNew
      rfl
  | cons entry rest =>
      rw [index, loadNextBlock] at isNew
      cases read : readBlock file entry with
      | error cause =>
          rw [read] at isNew
          cases isNew
      | ok block =>
          rw [read] at isNew
          cases isNew
          simp [items, unread, read]

end TableIterator

end LsmStore
