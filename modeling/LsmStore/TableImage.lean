import LsmStore.TableCreate

/-!
# Tables of any size

`TableHandle.create` cuts the length of a data block to 32 bits and counts the
offset of the next block by the shortened length.  So the blocks in front of the
first block that needs more than 32 bits can be read; that block itself cannot,
whatever its bytes are (`readDataBlock_long`); and what lies behind it is never
reached by an iterator.

`Readable` says how far a table can be read.  Every table that was created is
readable up to some block (`readable_of_create`); as far as it can be read,
iterating over it and looking keys up in it agree with its entries.
-/

set_option autoImplicit false

namespace LsmStore

open Foundation

/-! ## Blocks that cannot be read -/

/-- A prefix of an encoded entry is not an entry. -/
theorem decodeEntry_short {key : Key} {entry : Entry}
    (fits : (encodeEntry key entry).length < 2 ^ 32) {count : Nat}
    (short : count < (encodeEntry key entry).length) :
    ∃ cause, decodeEntry ((encodeEntry key entry).take count) = .error cause := by
  have length : ((encodeEntry key entry).take count).length = count := by
    rw [List.length_take]
    omega
  cases bytes : (encodeEntry key entry).take count with
  | nil => exact ⟨_, rfl⟩
  | cons kind fields =>
      rw [bytes] at length
      rw [decodeEntry]
      by_cases headless : (kind :: fields).length < 9
      · exact ⟨_, if_pos headless⟩
      · rw [if_neg headless]
        obtain ⟨more, rfl⟩ : ∃ more, count = 9 + more := ⟨count - 9, by omega⟩
        have keyFits : key.length < 2 ^ 32 := by
          rw [length_encodeEntry] at fits
          omega
        have valueFits : entry.valueLen < 2 ^ 32 := by
          rw [length_encodeEntry] at fits
          omega
        have shape : ∃ kind' : UInt8, ∃ body : Bytes, encodeEntry key entry =
            kind' :: (lenToLeBytes key.length ++ (lenToLeBytes entry.valueLen ++ body)) := by
          cases entry with
          | value value => exact ⟨typeValue, key ++ value, by simp [encodeEntry, Entry.valueLen]⟩
          | tombstone => exact ⟨typeTombstone, key, by simp [encodeEntry, Entry.valueLen]; rfl⟩
        obtain ⟨kind', body, isEntry⟩ := shape
        have fieldsEq : fields = lenToLeBytes key.length ++
            (lenToLeBytes entry.valueLen ++ body.take more) := by
          rw [isEntry, show 9 + more = (8 + more) + 1 by omega, List.take_succ_cons] at bytes
          rw [← (List.cons.inj bytes).2, show 8 + more = 4 + (4 + more) by omega]
          rw [show 4 + (4 + more) = (lenToLeBytes key.length).length + (4 + more) by simp,
            List.take_length_add_append,
            show 4 + more = (lenToLeBytes entry.valueLen).length + more by simp,
            List.take_length_add_append]
        have behind := drop_two_fields (length_lenToLeBytes key.length)
          (length_lenToLeBytes entry.valueLen) (body.take more)
        have tooShort : (body.take more).length < key.length + entry.valueLen := by
          rw [length_encodeEntry] at short
          rw [List.length_take]
          omega
        simp only [fieldsEq, take_lenToLeBytes_append, drop_lenToLeBytes_append, behind,
          toNat_readU32Le_lenToLeBytes keyFits, toNat_readU32Le_lenToLeBytes valueFits]
        exact ⟨_, if_pos tooShort⟩

/-- A prefix of the entries of a block does not hold as many entries. -/
theorem decodeEntries_short {block : BlockData}
    (fits : ∀ pair ∈ block, (encodeEntry pair.1 pair.2).length < 2 ^ 32) {count : Nat}
    (short : count < (encodeEntries block).length) :
    ∃ cause, decodeEntries block.length ((encodeEntries block).take count) = .error cause := by
  induction block generalizing count with
  | nil => simp at short
  | cons pair rest ih =>
      have fitsHere := fits pair List.mem_cons_self
      rw [List.length_cons, decodeEntries, encodeEntries_cons]
      rw [encodeEntries_cons, List.length_append] at short
      by_cases inside : count < (encodeEntry pair.1 pair.2).length
      · obtain ⟨cause, failed⟩ := decodeEntry_short fitsHere inside
        rw [List.take_append_of_le_length (le_of_lt inside), failed]
        exact ⟨_, rfl⟩
      · obtain ⟨more, rfl⟩ : ∃ more, count = (encodeEntry pair.1 pair.2).length + more :=
          ⟨count - (encodeEntry pair.1 pair.2).length, by omega⟩
        obtain ⟨cause, failed⟩ := ih (fun other member => fits other (List.mem_cons_of_mem _ member))
          (show more < (encodeEntries rest).length by omega)
        rw [List.take_length_add_append, decodeEntry_encodeEntry fitsHere]
        simp only [failed]
        exact ⟨_, rfl⟩

/-- **A block that needs more than 32 bits for its length cannot be read.** -/
theorem readDataBlock_long {block : BlockData} (long : 2 ^ 32 ≤ (blockBytes block).length)
    (fits : ∀ pair ∈ block, (encodeEntry pair.1 pair.2).length < 2 ^ 32)
    (few : block.length ≤ u32Max) {front : Bytes} (near : front.length < 2 ^ 64) (back : Bytes) :
    ∃ cause, readDataBlock (front ++ blockBytes block ++ back) (UInt64.ofNat front.length)
      (UInt32.ofNat (blockBytes block).length) = .error cause := by
  have offset : (UInt64.ofNat front.length).toNat = front.length := toNat_ofNat_of_lt near
  have shortened : (UInt32.ofNat (blockBytes block).length).toNat + 2 ^ 32 ≤
      (blockBytes block).length := by
    rw [UInt32.toNat_ofNat']
    omega
  obtain ⟨length, isLength⟩ : ∃ length, (UInt32.ofNat (blockBytes block).length).toNat = length :=
    ⟨_, rfl⟩
  rw [isLength] at shortened
  have window : ((front ++ blockBytes block ++ back).drop front.length).take length =
      (blockBytes block).take length := by
    rw [List.append_assoc, List.drop_left, List.take_append_of_le_length (by omega)]
  have windowLength : ((blockBytes block).take length).length = length := by
    rw [List.length_take]
    omega
  have count : (UInt32.ofNat block.length).toNat = block.length := by
    have max : u32Max = 2 ^ 32 - 1 := rfl
    rw [UInt32.toNat_ofNat', Nat.mod_eq_of_lt (by omega)]
  rw [length_blockBytes] at shortened
  simp only [readDataBlock, offset, isLength, window, windowLength]
  rw [if_neg (lt_irrefl _)]
  by_cases tiny : length < 8
  · exact ⟨_, if_pos tiny⟩
  rw [if_neg tiny]
  split
  · exact ⟨_, rfl⟩
  · -- the count says more entries than the shortened bytes hold
    have body : ((blockBytes block).take length).take (length - 4) =
        u32ToLeBytes (UInt32.ofNat block.length) ++ (encodeEntries block).take (length - 8) := by
      rw [List.take_take, min_eq_left (by omega), blockBytes, flushDataBlock, List.append_assoc,
        show length - 4 = (u32ToLeBytes (UInt32.ofNat block.length)).length + (length - 8) by
          rw [length_u32ToLeBytes]; omega,
        List.take_length_add_append, List.take_append_of_le_length (by omega)]
    rw [body, take_u32ToLeBytes_append, drop_u32ToLeBytes_append, readU32Le_u32ToLeBytes, count]
    exact decodeEntries_short fits (by omega)

/-! ## What a created table consists of -/

theorem sameRange_rowsFrom (offset : Nat) (blocks : List BlockData) :
    List.Forall₂ SameRange (rowsFrom offset blocks) blocks := by
  induction blocks generalizing offset with
  | nil => exact List.Forall₂.nil
  | cons block rest ih => exact List.Forall₂.cons ⟨rfl, rfl⟩ (ih _)

/-- The rows lie at or behind their first offset. -/
theorem le_offset_rowsFrom {offset : Nat} {blocks : List BlockData}
    (near : offset + countedLength blocks < 2 ^ 64) :
    ∀ row ∈ rowsFrom offset blocks, offset ≤ row.offset.toNat := by
  induction blocks generalizing offset with
  | nil => exact nofun
  | cons block rest ih =>
      have counted : countedLength (block :: rest) =
          (UInt32.ofNat (blockBytes block).length).toNat + countedLength rest := rfl
      intro row member
      rcases List.mem_cons.mp member with rfl | later
      · exact le_of_eq (toNat_ofNat_of_lt (by omega)).symm
      · have behind := ih (by omega) row later
        omega

section Created

variable {sizing : BloomSizing} {entries : List (Key × Entry)} {bloomFp : Float} {blockSize : Nat}
  {file : Bytes} {handle : TableHandle}

/-- What creating a table returned, whatever the lengths of its blocks. -/
theorem create_of_ok (valid : ValidRun entries)
    (created : TableHandle.create sizing entries bloomFp blockSize = .ok (file, handle)) :
    handle.index = rowsFrom 0 (cutBlocks blockSize entries) ∧
      TableRows handle (cutBlocks blockSize entries) ∧
      (∃ back, file = (cutBlocks blockSize entries).flatMap blockBytes ++ back) ∧
      (∀ block ∈ cutBlocks blockSize entries, block.length ≤ u32Max) ∧
      countedLength (cutBlocks blockSize entries) ≤ u64Max := by
  have flat := flatten_cutBlocks blockSize entries
  rw [TableHandle.create] at created
  simp only [valid.insertionSort_eq] at created
  rcases TableWriter.write_new blockSize entries with
    ⟨writer, pushed, finished, few, near⟩ | ⟨failed | ⟨writer, pushed, failed⟩, _⟩
  · simp only [pushed, finished] at created
    split at created
    · cases created
    · cases created
      refine ⟨rfl, ⟨sameRange_rowsFrom _ _, by rwa [flat], cutBlocks_cases _ _, ?_, ?_, ?_⟩,
        ⟨_, by simp only [TableWriter.upTo, List.append_assoc]; rfl⟩, few, near⟩
      · rw [flat]
      · rw [flat]
      · rw [flat]
        intro pair member
        exact BloomFilter.mightContain_insertAll (BloomFilter.length_bits_new_pos _ _ _)
          (List.mem_map_of_mem member)
  · simp only [failed] at created
    cases created
  · simp only [pushed, failed] at created
    cases created

/-- A table is created unless a block has too many entries or the lengths counted
for the blocks and the index are too large. -/
theorem exists_create (valid : ValidRun entries)
    (few : ∀ block ∈ cutBlocks blockSize entries, block.length ≤ u32Max)
    (near : countedLength (cutBlocks blockSize entries) +
      (encodeIndex (rowsFrom 0 (cutBlocks blockSize entries))).length ≤ u64Max) :
    ∃ file handle, TableHandle.create sizing entries bloomFp blockSize = .ok (file, handle) := by
  obtain ⟨writer, pushed, finished, _⟩ :=
    (TableWriter.write_new blockSize entries).resolve_right fun failed => by
      rcases failed.2 with ⟨block, member, crowded⟩ | far
      · exact absurd (few block member) (not_le.mpr crowded)
      · omega
  rw [TableHandle.create]
  simp only [valid.insertionSort_eq, pushed, finished]
  exact ⟨_, _, if_neg (not_lt.mpr near)⟩

/-- The sizes of entries that the engine stores. -/
def StoredSizes (entries : List (Key × Entry)) : Prop :=
  ∀ pair ∈ entries, pair.1.length ≤ maxKeySize ∧ pair.2.valueLen ≤ maxValueSize

theorem StoredSizes.fits (sizes : StoredSizes entries) {pair : Key × Entry}
    (member : pair ∈ entries) : (encodeEntry pair.1 pair.2).length < 2 ^ 32 := by
  obtain ⟨keyShort, valueShort⟩ := sizes pair member
  have keyMax : maxKeySize = 65536 := rfl
  have valueMax : maxValueSize = 67108864 := rfl
  rw [length_encodeEntry]
  omega

end Created

/-! ## How far a table can be read -/

/-- The table consists of blocks that can be read, one behind the other, and of
blocks that cannot be read or cannot be reached: the rows in front describe the
readable blocks, and the next row, if there is one, cannot be read. -/
structure Readable (handle : TableHandle) (file : Bytes) (good bad : List BlockData) : Prop where
  rows : TableRows handle (good ++ bad)
  split : ∃ front back, handle.index = front ++ back ∧
    List.Forall₂ (Describes file) front good ∧
    (back = [] ∧ bad = [] ∨
      ∃ row more cause, back = row :: more ∧ readBlock (some file) row = .error cause) ∧
    ∀ row ∈ front, ∀ other ∈ handle.index, other.offset = row.offset → other = row

/-- The blocks in front of the first one that is too long. -/
theorem exists_fitting_front (blocks : List BlockData) :
    ∃ good bad, good ++ bad = blocks ∧ (∀ block ∈ good, (blockBytes block).length < 2 ^ 32) ∧
      ∀ block more, bad = block :: more → 2 ^ 32 ≤ (blockBytes block).length := by
  induction blocks with
  | nil => exact ⟨[], [], rfl, nofun, nofun⟩
  | cons block rest ih =>
      by_cases fits : (blockBytes block).length < 2 ^ 32
      · obtain ⟨good, bad, rfl, goodFits, badStarts⟩ := ih
        exact ⟨block :: good, bad, rfl, List.forall_mem_cons.mpr ⟨fits, goodFits⟩, badStarts⟩
      · refine ⟨[], block :: rest, rfl, nofun, ?_⟩
        rintro _ _ ⟨⟩
        exact not_lt.mp fits

/-- The rows of blocks lie in front of the end of the blocks. -/
theorem offset_indexFrom_lt {offset : Nat} {blocks : List BlockData}
    (near : offset + (blocks.flatMap blockBytes).length < 2 ^ 64) :
    ∀ row ∈ indexFrom offset blocks,
      row.offset.toNat < offset + (blocks.flatMap blockBytes).length := by
  induction blocks generalizing offset with
  | nil => exact nofun
  | cons block rest ih =>
      have long := length_blockBytes block
      rw [List.flatMap_cons, List.length_append] at near ⊢
      intro row member
      rcases List.mem_cons.mp member with rfl | later
      · change (UInt64.ofNat offset).toNat < _
        rw [toNat_ofNat_of_lt (by omega)]
        omega
      · have before := ih (by omega) row later
        omega

/-- Rows in front of the first block that is too long are told apart from all rows
by their offsets. -/
theorem row_eq_of_offset_eq {good bad : List BlockData}
    (goodFits : ∀ block ∈ good, (blockBytes block).length < 2 ^ 32)
    (near : countedLength (good ++ bad) < 2 ^ 64) {row other : IndexEntry}
    (member : row ∈ rowsFrom 0 good) (otherMember : other ∈ rowsFrom 0 (good ++ bad))
    (same : other.offset = row.offset) : other = row := by
  have counted := countedLength_of_fits goodFits
  rw [countedLength_append] at near
  rw [rowsFrom_of_fits goodFits] at member
  rw [rowsFrom_append, rowsFrom_of_fits goodFits, Nat.zero_add] at otherMember
  rcases List.mem_append.mp otherMember with inFront | behind
  · have increasing := (indexFrom_offsets 0 good (by omega)).1
    have distinct : ((indexFrom 0 good).map IndexEntry.offset).Nodup :=
      List.pairwise_map.mpr (increasing.imp fun before => UInt64.ne_of_lt before)
    exact List.inj_on_of_nodup_map distinct inFront member same
  · have low := offset_indexFrom_lt (show 0 + (good.flatMap blockBytes).length < 2 ^ 64 by omega)
      row member
    have high := le_offset_rowsFrom near other behind
    rw [same] at high
    omega

/-- **Every created table is readable up to its first block that is too long.** -/
theorem readable_of_create {sizing : BloomSizing} {entries : List (Key × Entry)} {bloomFp : Float}
    {blockSize : Nat} {file : Bytes} {handle : TableHandle} (valid : ValidRun entries)
    (sizes : StoredSizes entries)
    (created : TableHandle.create sizing entries bloomFp blockSize = .ok (file, handle)) :
    ∃ good bad, (good ++ bad).flatten = entries ∧ Readable handle file good bad ∧
      ((∀ block ∈ cutBlocks blockSize entries, (blockBytes block).length < 2 ^ 32) → bad = []) := by
  obtain ⟨isIndex, rows, ⟨back, isFile⟩, few, near⟩ := create_of_ok valid created
  have flat := flatten_cutBlocks blockSize entries
  obtain ⟨good, bad, whole, goodFits, badStarts⟩ := exists_fitting_front (cutBlocks blockSize entries)
  rw [← whole] at isIndex rows isFile few near flat ⊢
  have max : u64Max = 2 ^ 64 - 1 := rfl
  have counted := countedLength_of_fits goodFits
  have nearFront : (good.flatMap blockBytes).length < 2 ^ 64 := by
    rw [countedLength_append] at near
    omega
  refine ⟨good, bad, flat, ⟨rows, rowsFrom 0 good, rowsFrom (countedLength good) bad, ?_, ?_, ?_, ?_⟩,
    ?_⟩
  · rw [isIndex, rowsFrom_append, Nat.zero_add]
  · have describes := describes_indexFrom goodFits [] (bad.flatMap blockBytes ++ back)
      (by rwa [List.nil_append])
    rw [rowsFrom_of_fits goodFits, isFile, List.flatMap_append, List.append_assoc]
    exact describes
  · cases bad with
    | nil => exact .inl ⟨rfl, rfl⟩
    | cons block more =>
        have inside : block ∈ good ++ block :: more :=
          List.mem_append_right _ List.mem_cons_self
        obtain ⟨cause, failed⟩ := readDataBlock_long (badStarts block more rfl)
          (fun pair member => sizes.fits (flat ▸ List.mem_flatten_of_mem inside member))
          (few block inside) nearFront (more.flatMap blockBytes ++ back)
        refine .inr ⟨_, _, cause, rfl, ?_⟩
        have regroup : (good ++ block :: more).flatMap blockBytes ++ back =
            good.flatMap blockBytes ++ blockBytes block ++ (more.flatMap blockBytes ++ back) := by
          simp
        rw [isFile, readBlock, regroup, counted]
        exact failed
  · intro row member other otherMember same
    rw [isIndex] at otherMember
    exact row_eq_of_offset_eq goodFits (by omega) member otherMember same
  · intro fits
    cases bad with
    | nil => rfl
    | cons block more =>
        have short := fits block (List.mem_append_right _ List.mem_cons_self)
        have long := badStarts block more rfl
        omega

namespace Readable

variable {handle : TableHandle} {file : Bytes} {good bad : List BlockData}

/-- An iterator yields the entries of the readable blocks, and an error if there are
other blocks. -/
theorem items_eq (readable : Readable handle file good bad) {iterator : TableIterator}
    (isNew : TableIterator.new handle (some file) = .ok iterator) :
    ∃ ending, iterator.items (some file) = good.flatten.map .ok ++ ending ∧
      (ending = [] ∧ bad = [] ∨ ∃ cause, ending = [.error cause]) := by
  obtain ⟨front, back, isIndex, describes, after, _⟩ := readable.split
  rw [TableIterator.items_new isNew, isIndex, unread_append_of_describes describes]
  refine ⟨_, rfl, ?_⟩
  rcases after with ⟨rfl, none⟩ | ⟨row, more, cause, rfl, failed⟩
  · exact .inl ⟨rfl, none⟩
  · exact .inr ⟨cause, by simp only [TableIterator.unread, failed]⟩

/-- A table all of whose blocks can be read can be iterated over. -/
theorem exists_iterator (readable : Readable handle file good []) :
    ∃ iterator, TableIterator.new handle (some file) = .ok iterator := by
  obtain ⟨front, back, isIndex, describes, _, _⟩ := readable.split
  have rows := readable.rows.ranged.length_eq
  rw [isIndex, List.append_nil, List.length_append, describes.length_eq] at rows
  obtain rfl : back = [] := List.length_eq_zero_iff.mp (by omega)
  rw [← List.append_nil front, ← isIndex] at describes
  exact exists_new_of_describes describes

/-- What lies behind a key of the readable blocks holds no smaller key. -/
theorem lt_of_mem_bad (readable : Readable handle file good bad) {key : Key}
    (reach : ∃ pair ∈ good.flatten, key ≤ pair.1) {later : Key × Entry}
    (member : later ∈ bad.flatten) : key < later.1 := by
  obtain ⟨pair, inGood, low⟩ := reach
  have sorted := readable.rows.valid.sorted
  rw [List.flatten_append] at sorted
  exact lt_of_le_of_lt low ((List.pairwise_append.mp sorted).2.2 pair inGood later member)

/-- As far as the table can be read, its entries are those of the readable blocks. -/
theorem valueAt_eq (readable : Readable handle file good bad) {key : Key}
    (reach : bad = [] ∨ ∃ pair ∈ good.flatten, key ≤ pair.1) :
    valueAt (good ++ bad).flatten key = valueAt good.flatten key := by
  rcases reach with rfl | reach
  · rw [List.append_nil]
  · have absent : valueAt bad.flatten key = none :=
      valueAt_eq_none_iff.mpr fun later member => ne_of_gt (readable.lt_of_mem_bad reach member)
    rw [List.flatten_append, valueAt_append, absent, Option.or_none]

/-- The block that decides about a key within reach is readable. -/
theorem lt_length_good (readable : Readable handle file good bad) {key : Key}
    (reach : bad = [] ∨ ∃ pair ∈ good.flatten, key ≤ pair.1) {position : Nat} {block : BlockData}
    (isBlock : (good ++ bad)[position]? = some block) (low : firstKey block ≤ key) :
    position < good.length := by
  by_contra outside
  rw [List.getElem?_append_right (not_lt.mp outside)] at isBlock
  have inBad : block ∈ bad := List.mem_of_getElem? isBlock
  have reach' : ∃ pair ∈ good.flatten, key ≤ pair.1 :=
    reach.resolve_left fun none => by rw [none] at inBad; cases inBad
  have filled : block ≠ [] := by
    rintro rfl
    rcases readable.rows.cut with single | filled
    · obtain ⟨pair, inGood, _⟩ := reach'
      obtain ⟨first, inFront, inFirst⟩ := List.mem_flatten.mp inGood
      have only : first ∈ good ++ bad := List.mem_append_left _ inFront
      rw [single, List.mem_singleton] at only
      rw [only] at inFirst
      cases inFirst
    · exact filled.2 (List.mem_append_right _ inBad)
  obtain ⟨first, inBlock, isFirst⟩ := exists_firstKey filled
  have behind := readable.lt_of_mem_bad reach' (List.mem_flatten_of_mem inBad inBlock)
  rw [isFirst] at behind
  exact absurd (lt_of_lt_of_le behind low) (lt_irrefl _)

/-- **A lookup gives the entry of the key as far as the table can be read.** -/
theorem get_eq (readable : Readable handle file good bad) {id : UInt64} {key : Key}
    {cache : Option BlockCache} {Cached : BlockKey → BlockData → Prop}
    (reach : bad = [] ∨ ∃ pair ∈ good.flatten, key ≤ pair.1)
    (cached : ∀ row ∈ handle.index, ∀ block, Cached ⟨id, row.offset⟩ block ↔
      ∃ other ∈ handle.index, other.offset = row.offset ∧
        readBlock (some file) other = .ok block)
    (keeps : CacheKeeps Cached cache) :
    ∃ cache', handle.get id (some file) key cache = (.ok (valueAt good.flatten key), cache') ∧
      CacheKeeps Cached cache' ∧ cache'.isSome = cache.isSome := by
  rw [← readable.valueAt_eq reach]
  refine readable.rows.get_eq ?_ keeps
  intro position block _ isBlock low
  obtain ⟨front, back, isIndex, describes, _, unique⟩ := readable.split
  have inside := readable.lt_length_good reach isBlock low
  have inFront : position.val < front.length := describes.length_eq ▸ inside
  have isRow : handle.index.get position = front[position.val] := by
    rw [List.get_eq_getElem]
    simp only [isIndex, List.getElem_append_left inFront]
  rw [List.getElem?_append_left inside, List.getElem?_eq_getElem inside] at isBlock
  cases isBlock
  have read : readBlock (some file) (handle.index.get position) = .ok good[position.val] := by
    rw [isRow]
    exact (describes.get inFront inside).read_eq
  have member : handle.index.get position ∈ handle.index := List.get_mem _ _
  refine ⟨read, ?_, (cached _ member _).mpr ⟨_, member, rfl, read⟩⟩
  intro other isCached
  obtain ⟨row, inIndex, same, isOther⟩ := (cached _ member _).mp isCached
  have inFrontRow : handle.index.get position ∈ front := by
    rw [isRow]
    exact List.getElem_mem inFront
  rw [unique _ inFrontRow row inIndex same, read] at isOther
  exact (Except.ok.inj isOther).symm

end Readable

end LsmStore
