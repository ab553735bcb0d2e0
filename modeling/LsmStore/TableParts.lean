import LsmStore.TableRows

/-!
# The parts of a table

The bytes of a table are described by the blocks its entries were cut into and
by its filter.  Creating a table yields the bytes and the handle of its parts;
opening these bytes yields the same handle; and iterating over the table and
looking keys up in it give the entries that the blocks hold.
-/

set_option autoImplicit false

namespace LsmStore

open Foundation

/-- The blocks a table's entries were cut into, and its filter. -/
structure TableParts where
  blocks : List BlockData
  bloom : BloomFilter

/-- The index rows of blocks that lie one behind the other from an offset on. -/
def indexFrom : Nat → List BlockData → List IndexEntry
  | _, [] => []
  | offset, block :: rest =>
      ⟨firstKey block, lastKey block, UInt64.ofNat offset,
        UInt32.ofNat (blockBytes block).length⟩ ::
        indexFrom (offset + (blockBytes block).length) rest

namespace TableParts

variable (parts : TableParts)

/-- The data blocks. -/
def data : Bytes := parts.blocks.flatMap blockBytes

/-- The index rows. -/
def index : List IndexEntry := indexFrom 0 parts.blocks

/-- The whole file. -/
def bytes : Bytes :=
  parts.data ++ encodeIndex parts.index ++ parts.bloom.encode ++
    encodeFooter parts.data.length (encodeIndex parts.index).length
      (parts.data.length + (encodeIndex parts.index).length) parts.bloom.encode.length

/-- What is kept of the table in memory. -/
def handle : TableHandle :=
  ⟨parts.index, parts.bloom, firstKey parts.blocks.flatten, lastKey parts.blocks.flatten,
    parts.bytes.length⟩

/-- The parts hold a run of entries: the blocks cut it into non-empty pieces (a
table without entries has one empty block), all lengths fit their fields, and
the filter knows every key. -/
structure Holds (entries : List (Key × Entry)) : Prop where
  valid : ValidRun entries
  flatten_eq : parts.blocks.flatten = entries
  cut : parts.blocks = [[]] ∨ parts.blocks ≠ [] ∧ [] ∉ parts.blocks
  blocksFit : ∀ block ∈ parts.blocks, (blockBytes block).length < 2 ^ 32
  few : parts.blocks.length < 2 ^ 32
  hashed : 1 ≤ parts.bloom.hashCount ∧ parts.bloom.hashCount ≤ 16
  filterFits : parts.bloom.bits.length < 2 ^ 32
  filtered : ∀ pair ∈ entries, parts.bloom.mightContain pair.1 = true
  fileFits : parts.bytes.length ≤ u64Max

end TableParts

/-! ## The index of blocks -/

@[simp] theorem length_indexFrom (offset : Nat) (blocks : List BlockData) :
    (indexFrom offset blocks).length = blocks.length := by
  induction blocks generalizing offset with
  | nil => rfl
  | cons block rest ih => rw [indexFrom, List.length_cons, List.length_cons, ih]

theorem map_firstKey_indexFrom (offset : Nat) (blocks : List BlockData) :
    (indexFrom offset blocks).map IndexEntry.firstKey = blocks.map firstKey := by
  induction blocks generalizing offset with
  | nil => rfl
  | cons block rest ih => rw [indexFrom, List.map_cons, List.map_cons, ih]

theorem map_lastKey_indexFrom (offset : Nat) (blocks : List BlockData) :
    (indexFrom offset blocks).map IndexEntry.lastKey = blocks.map lastKey := by
  induction blocks generalizing offset with
  | nil => rfl
  | cons block rest ih => rw [indexFrom, List.map_cons, List.map_cons, ih]

theorem mem_indexFrom {offset : Nat} {blocks : List BlockData} {entry : IndexEntry}
    (member : entry ∈ indexFrom offset blocks) :
    ∃ block ∈ blocks, entry.firstKey = firstKey block ∧ entry.lastKey = lastKey block := by
  induction blocks generalizing offset with
  | nil => cases member
  | cons block rest ih =>
      rcases List.mem_cons.mp member with rfl | later
      · exact ⟨block, List.mem_cons_self, rfl, rfl⟩
      · obtain ⟨other, inside, keys⟩ := ih later
        exact ⟨other, List.mem_cons_of_mem _ inside, keys⟩

/-- The offsets of the rows increase. -/
theorem indexFrom_offsets (offset : Nat) (blocks : List BlockData)
    (near : offset + (blocks.flatMap blockBytes).length < 2 ^ 64) :
    (indexFrom offset blocks).Pairwise (fun first second => first.offset < second.offset) ∧
      ∀ entry ∈ indexFrom offset blocks, offset ≤ entry.offset.toNat := by
  induction blocks generalizing offset with
  | nil => exact ⟨List.Pairwise.nil, nofun⟩
  | cons block rest ih =>
      rw [List.flatMap_cons, List.length_append] at near
      have long := length_blockBytes block
      have here : (UInt64.ofNat offset).toNat = offset := by
        rw [UInt64.toNat_ofNat', Nat.mod_eq_of_lt (by omega)]
      obtain ⟨increasing, later⟩ := ih (offset + (blockBytes block).length) (by omega)
      refine ⟨List.pairwise_cons.mpr ⟨?_, increasing⟩, ?_⟩
      · intro entry member
        have behind := later entry member
        rw [UInt64.lt_iff_toNat_lt, here]
        omega
      · intro entry member
        rcases List.mem_cons.mp member with rfl | further
        · exact le_of_eq here.symm
        · have behind := later entry further
          omega

/-- What an index row says about its block in a file. -/
structure Describes (file : Bytes) (entry : IndexEntry) (block : BlockData) : Prop where
  firstKey_eq : entry.firstKey = firstKey block
  lastKey_eq : entry.lastKey = lastKey block
  read_eq : readBlock (some file) entry = .ok block

/-- The rows describe the blocks of a file that lie from their offset on. -/
theorem describes_indexFrom {blocks : List BlockData}
    (blocksFit : ∀ block ∈ blocks, (blockBytes block).length < 2 ^ 32) (front back : Bytes)
    (near : (front ++ blocks.flatMap blockBytes).length < 2 ^ 64) :
    List.Forall₂ (Describes (front ++ blocks.flatMap blockBytes ++ back))
      (indexFrom front.length blocks) blocks := by
  induction blocks generalizing front with
  | nil => exact List.Forall₂.nil
  | cons block rest ih =>
      have regroup : front ++ (block :: rest).flatMap blockBytes =
          front ++ blockBytes block ++ rest.flatMap blockBytes := by
        rw [List.flatMap_cons, List.append_assoc]
      rw [regroup] at near ⊢
      refine List.Forall₂.cons ⟨rfl, rfl, ?_⟩ ?_
      · rw [List.append_assoc _ _ back]
        refine readDataBlock_blockBytes (blocksFit block List.mem_cons_self) ?_ _
        simp only [List.length_append] at near
        omega
      · have tail := ih (fun other member => blocksFit other (List.mem_cons_of_mem _ member))
          (front ++ blockBytes block) near
        rwa [List.length_append] at tail

/-- The items read through rows that describe blocks are the entries of the blocks. -/
theorem unread_append_of_describes {file : Bytes} {front : List IndexEntry}
    {blocks : List BlockData} (describes : List.Forall₂ (Describes file) front blocks)
    (back : List IndexEntry) :
    TableIterator.unread (some file) (front ++ back) =
      blocks.flatten.map .ok ++ TableIterator.unread (some file) back := by
  induction describes with
  | nil => rfl
  | cons row _ ih =>
      rw [List.cons_append, TableIterator.unread, row.read_eq, List.flatten_cons, List.map_append,
        List.append_assoc]
      simp only [ih]

/-- Rows that describe blocks let an iterator load its first block. -/
theorem exists_new_of_describes {file : Bytes} {handle : TableHandle} {blocks : List BlockData}
    (describes : List.Forall₂ (Describes file) handle.index blocks) :
    ∃ iterator, TableIterator.new handle (some file) = .ok iterator := by
  rw [TableIterator.new]
  generalize handle.index = index at describes
  cases describes with
  | nil => exact ⟨_, rfl⟩
  | cons row rest =>
      rw [TableIterator.loadNextBlock, row.read_eq]
      exact ⟨_, rfl⟩

/-! ## The footer -/

theorem length_encodeFooter (indexOffset indexLen bloomOffset bloomLen : Nat) :
    (encodeFooter indexOffset indexLen bloomOffset bloomLen).length = footerLen := by
  simp [encodeFooter, footerLen]

theorem toNat_ofNat_of_lt {number : Nat} (small : number < 2 ^ 64) :
    (UInt64.ofNat number).toNat = number := by
  rw [UInt64.toNat_ofNat', Nat.mod_eq_of_lt small]

/-- Skipping a field on the way to a later one. -/
theorem drop_u64_add (number : UInt64) (more : Nat) (rest : Bytes) :
    (u64ToLeBytes number ++ rest).drop (8 + more) = rest.drop more := by
  rw [← length_u64ToLeBytes number]
  exact List.drop_length_add_append _

/-- What is read from the fields of a footer. -/
structure FooterReads (footer : Bytes) (indexOffset indexLen bloomOffset bloomLen : Nat) :
    Prop where
  magic_eq : readU32Le ((footer.drop 44).take 4) = magic
  crc_eq : crc32 (footer.take 40) = readU32Le ((footer.drop 40).take 4)
  version_eq : readU32Le ((footer.drop 32).take 4) = formatVersion
  indexOffset_eq : (readU64Le (footer.take 8)).toNat = indexOffset
  indexLen_eq : (readU64Le ((footer.drop 8).take 8)).toNat = indexLen
  bloomOffset_eq : (readU64Le ((footer.drop 16).take 8)).toNat = bloomOffset
  bloomLen_eq : (readU64Le ((footer.drop 24).take 8)).toNat = bloomLen

theorem footerReads_encodeFooter {indexOffset indexLen bloomOffset bloomLen : Nat}
    (indexNear : indexOffset < 2 ^ 64) (indexShort : indexLen < 2 ^ 64)
    (bloomNear : bloomOffset < 2 ^ 64) (bloomShort : bloomLen < 2 ^ 64) :
    FooterReads (encodeFooter indexOffset indexLen bloomOffset bloomLen) indexOffset indexLen
      bloomOffset bloomLen := by
  have long : (u64ToLeBytes (UInt64.ofNat indexOffset) ++ u64ToLeBytes (UInt64.ofNat indexLen) ++
      u64ToLeBytes (UInt64.ofNat bloomOffset) ++ u64ToLeBytes (UInt64.ofNat bloomLen) ++
      u32ToLeBytes formatVersion ++ u32ToLeBytes 0).length = 40 := by
    simp only [List.length_append, length_u64ToLeBytes, length_u32ToLeBytes]
  simp only [encodeFooter]
  constructor
  · rw [List.drop_left' (by rw [List.length_append, long, length_u32ToLeBytes]),
      List.take_of_length_le (by rw [length_u32ToLeBytes]), readU32Le_u32ToLeBytes]
  · rw [List.append_assoc, List.take_left' long, List.drop_left' long, take_u32ToLeBytes_append,
      readU32Le_u32ToLeBytes]
  · simp only [List.append_assoc]
    rw [drop_u64_add _ 24, drop_u64_add _ 16, drop_u64_add _ 8, drop_u64ToLeBytes_append,
      take_u32ToLeBytes_append, readU32Le_u32ToLeBytes]
  · simp only [List.append_assoc, take_u64ToLeBytes_append, readU64Le_u64ToLeBytes,
      toNat_ofNat_of_lt indexNear]
  · simp only [List.append_assoc, drop_u64ToLeBytes_append, take_u64ToLeBytes_append,
      readU64Le_u64ToLeBytes, toNat_ofNat_of_lt indexShort]
  · simp only [List.append_assoc]
    rw [drop_u64_add _ 8, drop_u64ToLeBytes_append, take_u64ToLeBytes_append,
      readU64Le_u64ToLeBytes, toNat_ofNat_of_lt bloomNear]
  · simp only [List.append_assoc]
    rw [drop_u64_add _ 16, drop_u64_add _ 8, drop_u64ToLeBytes_append, take_u64ToLeBytes_append,
      readU64Le_u64ToLeBytes, toNat_ofNat_of_lt bloomShort]

/-! ## Opening the bytes of a table -/

namespace TableParts

variable {parts : TableParts} {entries : List (Key × Entry)}

theorem length_bytes (parts : TableParts) : parts.bytes.length = parts.data.length +
    (encodeIndex parts.index).length + parts.bloom.encode.length + footerLen := by
  simp only [bytes, List.length_append, length_encodeFooter]

/-- The smallest key of a table is the first key of its first block. -/
theorem Holds.smallest_eq (holds : parts.Holds entries) :
    (parts.index.head?.map IndexEntry.firstKey).getD [] = firstKey parts.blocks.flatten := by
  rw [index, ← List.head?_map, map_firstKey_indexFrom, List.head?_map]
  rcases holds.cut with single | ⟨nonempty, noEmpty⟩
  · rw [single]
    rfl
  · obtain ⟨block, rest, shape⟩ := List.exists_cons_of_ne_nil nonempty
    have filled : block ≠ [] := by
      rintro rfl
      exact noEmpty (shape ▸ List.mem_cons_self)
    rw [shape, List.flatten_cons, firstKey_append filled]
    rfl

/-- The largest key of a table is the last key of its last block. -/
theorem Holds.largest_eq (holds : parts.Holds entries) :
    (parts.index.getLast?.map IndexEntry.lastKey).getD [] = lastKey parts.blocks.flatten := by
  rw [index, ← List.getLast?_map, map_lastKey_indexFrom, List.getLast?_map]
  rcases holds.cut with single | ⟨nonempty, noEmpty⟩
  · rw [single]
    rfl
  · obtain ⟨front, block, shape⟩ := (List.eq_nil_or_concat' _).resolve_left nonempty
    have filled : block ≠ [] := by
      rintro rfl
      exact noEmpty (shape ▸ List.mem_append_right _ List.mem_cons_self)
    rw [shape, List.flatten_append, List.flatten_singleton, lastKey_append filled,
      List.getLast?_append_of_ne_nil _ (List.cons_ne_nil _ _)]
    rfl

/-- The keys in the index are keys of entries that fit their block. -/
theorem Holds.index_fits (holds : parts.Holds entries) : ∀ entry ∈ parts.index,
    entry.firstKey.length < 2 ^ 32 ∧ entry.lastKey.length < 2 ^ 32 := by
  have short : ∀ block ∈ parts.blocks,
      (firstKey block).length < 2 ^ 32 ∧ (lastKey block).length < 2 ^ 32 := by
    intro block member
    have fits := holds.blocksFit block member
    rw [length_blockBytes] at fits
    have bounded : ∀ pair ∈ block, pair.1.length < 2 ^ 32 := by
      intro pair inside
      have within := length_encodeEntry_le inside
      rw [length_encodeEntry] at within
      omega
    rcases eq_or_ne block [] with rfl | nonempty
    · exact ⟨by decide, by decide⟩
    · obtain ⟨first, firstInside, isFirst⟩ := exists_firstKey nonempty
      obtain ⟨last, lastInside, isLast⟩ := exists_lastKey nonempty
      exact ⟨isFirst ▸ bounded first firstInside, isLast ▸ bounded last lastInside⟩
  intro entry member
  obtain ⟨block, inside, first, last⟩ := mem_indexFrom member
  rw [first, last]
  exact short block inside

/-- **A table that was created can be opened**, and opening it gives its handle. -/
theorem Holds.openFile_bytes (holds : parts.Holds entries) :
    TableHandle.openFile parts.bytes = .ok parts.handle := by
  have total := parts.length_bytes
  have fits := holds.fileFits
  have max : u64Max = 2 ^ 64 - 1 := rfl
  have reads := footerReads_encodeFooter (show parts.data.length < 2 ^ 64 by omega)
    (show (encodeIndex parts.index).length < 2 ^ 64 by omega)
    (show parts.data.length + (encodeIndex parts.index).length < 2 ^ 64 by omega)
    (show parts.bloom.encode.length < 2 ^ 64 by omega)
  have footer : parts.bytes.drop (parts.bytes.length - footerLen) =
      encodeFooter parts.data.length (encodeIndex parts.index).length
        (parts.data.length + (encodeIndex parts.index).length) parts.bloom.encode.length := by
    refine List.drop_left' ?_
    simp only [List.length_append]
    omega
  have indexWindow : (parts.bytes.drop parts.data.length).take (encodeIndex parts.index).length =
      encodeIndex parts.index := by
    rw [bytes, List.append_assoc, List.append_assoc, List.drop_left, List.take_left]
  have bloomWindow : (parts.bytes.drop (parts.data.length + (encodeIndex parts.index).length)).take
      parts.bloom.encode.length = parts.bloom.encode := by
    rw [bytes, List.append_assoc, List.drop_left' List.length_append, List.take_left]
  have few : parts.index.length < 2 ^ 32 := by
    rw [index, length_indexFrom]
    exact holds.few
  simp only [TableHandle.openFile, footer, reads.magic_eq, reads.crc_eq, reads.version_eq,
    reads.indexOffset_eq, reads.indexLen_eq, reads.bloomOffset_eq, reads.bloomLen_eq, indexWindow,
    bloomWindow, decodeIndex_encodeIndex few holds.index_fits,
    BloomFilter.decode_encode holds.hashed.1 holds.hashed.2 holds.filterFits, holds.smallest_eq,
    holds.largest_eq, ne_eq, not_true_eq_false, if_false]
  rw [if_neg (by omega), if_neg (by omega)]
  rfl

/-! ## Reading a table -/

/-- The rows of the index describe the blocks of the file. -/
theorem Holds.describes (holds : parts.Holds entries) :
    List.Forall₂ (Describes parts.bytes) parts.handle.index parts.blocks := by
  have short := parts.length_bytes
  have fits := holds.fileFits
  have max : u64Max = 2 ^ 64 - 1 := rfl
  have rows := describes_indexFrom holds.blocksFit []
    (encodeIndex parts.index ++ (parts.bloom.encode ++
      encodeFooter parts.data.length (encodeIndex parts.index).length
        (parts.data.length + (encodeIndex parts.index).length) parts.bloom.encode.length))
    (by rw [List.nil_append]; change parts.data.length < 2 ^ 64; omega)
  rw [bytes, List.append_assoc, List.append_assoc]
  exact rows

/-- **Iterating over a table yields its entries.** -/
theorem Holds.unread_eq (holds : parts.Holds entries) :
    TableIterator.unread (some parts.bytes) parts.handle.index = entries.map .ok := by
  have items := unread_append_of_describes holds.describes []
  rwa [List.append_nil, TableIterator.unread, List.append_nil, holds.flatten_eq] at items

/-- An iterator over a table can be opened. -/
theorem Holds.exists_iterator (holds : parts.Holds entries) :
    ∃ iterator, TableIterator.new parts.handle (some parts.bytes) = .ok iterator ∧
      iterator.items (some parts.bytes) = entries.map .ok := by
  obtain ⟨iterator, isNew⟩ := exists_new_of_describes holds.describes
  exact ⟨iterator, isNew, (TableIterator.items_new isNew).trans holds.unread_eq⟩

/-- The handle says what the blocks hold. -/
theorem Holds.rows (holds : parts.Holds entries) : TableRows parts.handle parts.blocks where
  ranged := holds.describes.imp fun _ _ row => ⟨row.firstKey_eq, row.lastKey_eq⟩
  valid := holds.flatten_eq ▸ holds.valid
  cut := holds.cut
  smallest_eq := rfl
  largest_eq := rfl
  filtered := holds.flatten_eq ▸ holds.filtered

/-! ## Lookups -/

/-- A block in the cache is the block at its offset in the file of its table. -/
def Cached (files : UInt64 → Option Bytes) (key : BlockKey) (block : BlockData) : Prop :=
  ∃ file handle entry, files key.tableId = some file ∧ TableHandle.openFile file = .ok handle ∧
    entry ∈ handle.index ∧ entry.offset = key.offset ∧ readBlock (some file) entry = .ok block

/-- A cache, if there is one, holds only blocks of the files. -/
def CoherentWith (files : UInt64 → Option Bytes) (cache : Option BlockCache) : Prop :=
  ∀ resident ∈ cache, resident.Keeps (Cached files)

/-- Rows of one table are told apart by their offsets. -/
theorem Holds.eq_of_offset_eq (holds : parts.Holds entries) {entry other : IndexEntry}
    (member : entry ∈ parts.handle.index) (otherMember : other ∈ parts.handle.index)
    (same : entry.offset = other.offset) : entry = other := by
  have total := parts.length_bytes
  have fits := holds.fileFits
  have max : u64Max = 2 ^ 64 - 1 := rfl
  have increasing := (indexFrom_offsets 0 parts.blocks (by
    change 0 + parts.data.length < 2 ^ 64
    omega)).1
  have distinct : (parts.handle.index.map IndexEntry.offset).Nodup :=
    List.pairwise_map.mpr (increasing.imp fun before => UInt64.ne_of_lt before)
  exact List.inj_on_of_nodup_map distinct member otherMember same

variable {files : UInt64 → Option Bytes} {id : UInt64} {cache : Option BlockCache}

/-- **Looking a key up in a table gives its entry**, with or without a cache. -/
theorem Holds.get_eq (holds : parts.Holds entries) (here : files id = some parts.bytes)
    (coherent : CoherentWith files cache) (key : Key) :
    ∃ cache', parts.handle.get id (some parts.bytes) key cache =
        (.ok (valueAt entries key), cache') ∧
      CoherentWith files cache' ∧ cache'.isSome = cache.isSome := by
  rw [← holds.flatten_eq]
  refine holds.rows.get_eq ?_ coherent
  intro position block _ isBlock _
  obtain ⟨inside, rfl⟩ := List.getElem?_eq_some_iff.mp isBlock
  have read := (holds.describes.get position.isLt inside).read_eq
  have member : parts.handle.index.get position ∈ parts.handle.index := List.get_mem _ _
  refine ⟨read, ?_, _, _, _, here, holds.openFile_bytes, member, rfl, read⟩
  -- a cached block was read from a row with the same offset: the same row
  rintro other ⟨file, handle, entry, isFile, opens, inIndex, offset, isOther⟩
  rw [here] at isFile
  cases isFile
  rw [holds.openFile_bytes] at opens
  cases opens
  rw [holds.eq_of_offset_eq inIndex member offset] at isOther
  exact Except.ok.inj (isOther.symm.trans read)

end TableParts

end LsmStore
