import LsmStore.TableParts

/-!
# Creating a table

Creating a table cuts the entries into blocks, each closed by the entry that
makes it reach the block size, and writes the blocks, their index and the
filter: the bytes and the handle of the table's parts.  What a created table
answers, through the handle that creating it returned or through one that
opening its file returns, is then what its parts say.
-/

set_option autoImplicit false

namespace LsmStore

open Foundation

/-! ## Cutting entries into blocks -/

/-- The blocks that are closed and the entries still pending once more entries are buffered. -/
def cutFrom (blockSize : Nat) : BlockData → List (Key × Entry) → List BlockData × BlockData
  | pending, [] => ([], pending)
  | pending, pair :: rest =>
      if (encodeEntries (pending ++ [pair])).length ≥ blockSize then
        ((pending ++ [pair]) :: (cutFrom blockSize [] rest).1, (cutFrom blockSize [] rest).2)
      else cutFrom blockSize (pending ++ [pair]) rest

/-- The last block is written unless it is empty; a table has at least one block. -/
def closeLast (closed : List BlockData) (last : BlockData) : List BlockData :=
  if last ≠ [] ∨ closed = [] then closed ++ [last] else closed

/-- The blocks that a table's entries are cut into: a block is closed by the entry
that makes it reach the block size. -/
def cutBlocks (blockSize : Nat) (entries : List (Key × Entry)) : List BlockData :=
  closeLast (cutFrom blockSize [] entries).1 (cutFrom blockSize [] entries).2

theorem closeLast_cases (closed : List BlockData) (last : BlockData) :
    ((last ≠ [] ∨ closed = []) ∧ closeLast closed last = closed ++ [last]) ∨
      (last = [] ∧ closed ≠ []) ∧ closeLast closed last = closed := by
  rw [closeLast]
  split
  · rename_i isOpen
    exact .inl ⟨isOpen, rfl⟩
  · rename_i shut
    exact .inr ⟨by simpa using shut, rfl⟩

theorem cutFrom_flatten (blockSize : Nat) (pending : BlockData) (entries : List (Key × Entry)) :
    (cutFrom blockSize pending entries).1.flatten ++ (cutFrom blockSize pending entries).2 =
      pending ++ entries := by
  induction entries generalizing pending with
  | nil => simp [cutFrom]
  | cons pair rest ih =>
      rw [cutFrom]
      split
      · rw [List.flatten_cons, List.append_assoc, ih]
        simp
      · rw [ih]
        simp

theorem cutFrom_filled (blockSize : Nat) (pending : BlockData) (entries : List (Key × Entry)) :
    [] ∉ (cutFrom blockSize pending entries).1 := by
  induction entries generalizing pending with
  | nil => simp [cutFrom]
  | cons pair rest ih =>
      rw [cutFrom]
      split
      · simpa using ih []
      · exact ih _

/-- The entry that makes a block reach the block size closes it. -/
theorem cutFrom_full {blockSize : Nat} {pending front : BlockData} {last : Key × Entry}
    (rest : List (Key × Entry)) (small : (encodeEntries (pending ++ front)).length < blockSize)
    (full : blockSize ≤ (encodeEntries (pending ++ front ++ [last])).length) :
    cutFrom blockSize pending (front ++ last :: rest) =
      ((pending ++ front ++ [last]) :: (cutFrom blockSize [] rest).1,
        (cutFrom blockSize [] rest).2) := by
  induction front generalizing pending with
  | nil =>
      rw [List.append_nil] at full ⊢
      rw [List.nil_append, cutFrom, if_pos full]
  | cons pair front ih =>
      have short : ¬ (encodeEntries (pending ++ [pair])).length ≥ blockSize := by
        simp only [encodeEntries_append, encodeEntries_cons, List.length_append] at small ⊢
        simp only [encodeEntries_nil, List.length_nil]
        omega
      have regroup : pending ++ pair :: front = pending ++ [pair] ++ front := by simp
      rw [regroup] at small full ⊢
      rw [List.cons_append, cutFrom, if_neg short]
      exact ih small full

/-- What is pending ends up in front of some block. -/
theorem exists_prefix_cutFrom (blockSize : Nat) (pending : BlockData)
    (entries : List (Key × Entry)) :
    ∃ block ∈ (cutFrom blockSize pending entries).1 ++ [(cutFrom blockSize pending entries).2],
      pending <+: block := by
  induction entries generalizing pending with
  | nil => exact ⟨pending, by simp [cutFrom], List.prefix_refl _⟩
  | cons pair rest ih =>
      rw [cutFrom]
      split
      · exact ⟨pending ++ [pair], by simp, List.prefix_append _ _⟩
      · obtain ⟨block, member, starts⟩ := ih (pending ++ [pair])
        exact ⟨block, member, (List.prefix_append _ _).trans starts⟩

/-! ## What a writer has written -/

/-- The rows of blocks, with lengths cut to 32 bits and offsets counted by them. -/
def rowsFrom : Nat → List BlockData → List IndexEntry
  | _, [] => []
  | offset, block :: rest =>
      ⟨firstKey block, lastKey block, UInt64.ofNat offset,
        UInt32.ofNat (blockBytes block).length⟩ ::
        rowsFrom (offset + (UInt32.ofNat (blockBytes block).length).toNat) rest

/-- The length of blocks, as the writer counts it. -/
def countedLength (blocks : List BlockData) : Nat :=
  (blocks.map fun block => (UInt32.ofNat (blockBytes block).length).toNat).sum

theorem countedLength_append (front back : List BlockData) :
    countedLength (front ++ back) = countedLength front + countedLength back := by
  simp [countedLength]

theorem rowsFrom_append (offset : Nat) (front back : List BlockData) :
    rowsFrom offset (front ++ back) =
      rowsFrom offset front ++ rowsFrom (offset + countedLength front) back := by
  induction front generalizing offset with
  | nil => rfl
  | cons block rest ih =>
      rw [List.cons_append, rowsFrom, rowsFrom, ih, List.cons_append, Nat.add_assoc]
      rfl

/-- The length of a block that fits is counted as it is. -/
theorem toNat_length_of_fits {block : BlockData} (fits : (blockBytes block).length < 2 ^ 32) :
    (UInt32.ofNat (blockBytes block).length).toNat = (blockBytes block).length := by
  rw [UInt32.toNat_ofNat', Nat.mod_eq_of_lt fits]

theorem countedLength_of_fits {blocks : List BlockData}
    (fits : ∀ block ∈ blocks, (blockBytes block).length < 2 ^ 32) :
    countedLength blocks = (blocks.flatMap blockBytes).length := by
  rw [countedLength, List.length_flatMap]
  congr 1
  exact List.map_congr_left fun block member => toNat_length_of_fits (fits block member)

theorem rowsFrom_of_fits {blocks : List BlockData}
    (fits : ∀ block ∈ blocks, (blockBytes block).length < 2 ^ 32) (offset : Nat) :
    rowsFrom offset blocks = indexFrom offset blocks := by
  induction blocks generalizing offset with
  | nil => rfl
  | cons block rest ih =>
      rw [rowsFrom, indexFrom, toNat_length_of_fits (fits block List.mem_cons_self),
        ih fun other member => fits other (List.mem_cons_of_mem _ member)]

namespace TableWriter

/-- The writer that has written some blocks and buffers some entries. -/
def upTo (blocks : List BlockData) (pending : BlockData) : TableWriter where
  file := blocks.flatMap blockBytes
  index := rowsFrom 0 blocks
  blockBuf := encodeEntries pending
  blockFirst := pending.head?.map (·.1)
  blockLast := lastKey pending
  blockCount := pending.length
  offset := countedLength blocks

theorem cut_upTo (blocks : List BlockData) (pending : BlockData) :
    (upTo blocks pending).cut =
      if countedLength (blocks ++ [pending]) > u64Max then .error .panic
      else .ok (upTo (blocks ++ [pending]) []) := by
  have length : countedLength (blocks ++ [pending]) = countedLength blocks +
      (UInt32.ofNat (blockBytes pending).length).toNat := by
    simp [countedLength]
  have row : rowsFrom 0 (blocks ++ [pending]) = rowsFrom 0 blocks ++
      [⟨firstKey pending, lastKey pending, UInt64.ofNat (countedLength blocks),
        UInt32.ofNat (blockBytes pending).length⟩] := by
    rw [rowsFrom_append, Nat.zero_add]
    rfl
  have written : (blocks ++ [pending]).flatMap blockBytes =
      blocks.flatMap blockBytes ++ blockBytes pending := by
    simp
  have isBlock : flushDataBlock (encodeEntries pending) (UInt32.ofNat pending.length) =
      blockBytes pending := rfl
  simp only [cut, upTo, isBlock, length, row, written]
  rfl

/-- Buffering an entry, before a block is cut. -/
theorem buffered_upTo (blocks : List BlockData) (pending : BlockData) (pair : Key × Entry) :
    { upTo blocks pending with
      blockFirst := some ((upTo blocks pending).blockFirst.getD pair.1)
      blockBuf := (upTo blocks pending).blockBuf ++ encodeEntry pair.1 pair.2
      blockCount := (upTo blocks pending).blockCount + 1
      blockLast := pair.1 } = upTo blocks (pending ++ [pair]) := by
  have first : some ((pending.head?.map (·.1)).getD pair.1) =
      (pending ++ [pair]).head?.map (·.1) := by
    cases pending <;> rfl
  have last : lastKey (pending ++ [pair]) = pair.1 := lastKey_append (List.cons_ne_nil _ _) _
  simp only [upTo, first, last, encodeEntries_append, encodeEntries_cons, encodeEntries_nil,
    List.append_nil, List.length_append, List.length_singleton]

theorem push_upTo (blockSize : Nat) (blocks : List BlockData) (pending : BlockData)
    (pair : Key × Entry) :
    (upTo blocks pending).push blockSize pair =
      if pending.length + 1 > u32Max then .error .panic
      else if (encodeEntries (pending ++ [pair])).length ≥ blockSize then
        (upTo blocks (pending ++ [pair])).cut
      else .ok (upTo blocks (pending ++ [pair])) := by
  have buffer : (upTo blocks pending).blockBuf ++ encodeEntry pair.1 pair.2 =
      encodeEntries (pending ++ [pair]) := by
    simp [upTo]
  have count : (upTo blocks pending).blockCount = pending.length := rfl
  simp only [push, buffered_upTo]
  rw [buffer, count]

/-- **Buffering entries cuts them into blocks**, unless a block has too many entries
or the blocks are too long to be counted. -/
theorem pushAll_upTo (blockSize : Nat) (entries : List (Key × Entry)) (blocks : List BlockData)
    (pending : BlockData) (few : pending.length ≤ u32Max) (near : countedLength blocks ≤ u64Max) :
    ((upTo blocks pending).pushAll blockSize entries =
        .ok (upTo (blocks ++ (cutFrom blockSize pending entries).1)
          (cutFrom blockSize pending entries).2) ∧
      (∀ block ∈ (cutFrom blockSize pending entries).1 ++
        [(cutFrom blockSize pending entries).2], block.length ≤ u32Max) ∧
      countedLength (blocks ++ (cutFrom blockSize pending entries).1) ≤ u64Max) ∨
    (upTo blocks pending).pushAll blockSize entries = .error .panic ∧
      ((∃ block ∈ (cutFrom blockSize pending entries).1 ++
        [(cutFrom blockSize pending entries).2], u32Max < block.length) ∨
      u64Max < countedLength (blocks ++ (cutFrom blockSize pending entries).1)) := by
  induction entries generalizing blocks pending with
  | nil =>
      refine .inl ⟨by simp [pushAll, cutFrom], ?_, by simpa [cutFrom] using near⟩
      intro block member
      obtain rfl : block = pending := by simpa [cutFrom] using member
      exact few
  | cons pair rest ih =>
      have counted : (pending ++ [pair]).length = pending.length + 1 := by simp
      rw [pushAll, push_upTo]
      by_cases crowded : pending.length + 1 > u32Max
      · rw [if_pos crowded]
        refine .inr ⟨rfl, .inl ?_⟩
        have starts : ∃ block ∈ (cutFrom blockSize pending (pair :: rest)).1 ++
            [(cutFrom blockSize pending (pair :: rest)).2], (pending ++ [pair]) <+: block := by
          rw [cutFrom]
          split
          · exact ⟨pending ++ [pair], by simp, List.prefix_refl _⟩
          · exact exists_prefix_cutFrom blockSize (pending ++ [pair]) rest
        obtain ⟨block, member, starts⟩ := starts
        have longer := starts.length_le
        exact ⟨block, member, by omega⟩
      · rw [if_neg crowded]
        by_cases full : (encodeEntries (pending ++ [pair])).length ≥ blockSize
        · rw [if_pos full, cut_upTo]
          simp only [cutFrom, if_pos full]
          have regroup : blocks ++ (pending ++ [pair]) :: (cutFrom blockSize [] rest).1 =
              blocks ++ [pending ++ [pair]] ++ (cutFrom blockSize [] rest).1 := by simp
          rw [regroup]
          by_cases far : countedLength (blocks ++ [pending ++ [pair]]) > u64Max
          · rw [if_pos far]
            refine .inr ⟨rfl, .inr ?_⟩
            rw [countedLength_append]
            omega
          · rw [if_neg far]
            rcases ih (blocks ++ [pending ++ [pair]]) [] (Nat.zero_le _) (not_lt.mp far) with
              ⟨done, counts, short⟩ | ⟨failed, cause⟩
            · refine .inl ⟨done, ?_, short⟩
              intro block member
              rw [List.cons_append] at member
              rcases List.mem_cons.mp member with rfl | later
              · omega
              · exact counts block later
            · refine .inr ⟨failed, ?_⟩
              rcases cause with ⟨block, member, crowded⟩ | far
              · exact .inl ⟨block, by rw [List.cons_append]; exact List.mem_cons_of_mem _ member,
                  crowded⟩
              · exact .inr far
        · rw [if_neg full]
          simp only [cutFrom, if_neg full]
          exact ih blocks (pending ++ [pair]) (by omega) near

/-- The last block is written as `closeLast` says. -/
theorem finish_upTo (closed : List BlockData) (last : BlockData)
    (near : countedLength closed ≤ u64Max) :
    (upTo closed last).finish =
      if countedLength (closeLast closed last) > u64Max then .error .panic
      else .ok (upTo (closeLast closed last) []) := by
  have pending : ((upTo closed last).blockCount > 0 ∨ (upTo closed last).index = []) ↔
      (last ≠ [] ∨ closed = []) := by
    have empty : rowsFrom 0 closed = [] ↔ closed = [] := by
      cases closed <;> simp [rowsFrom]
    simp only [upTo, empty, gt_iff_lt, List.length_pos_iff]
  rcases closeLast_cases closed last with ⟨isOpen, blocks⟩ | ⟨⟨rfl, some⟩, blocks⟩
  · rw [blocks, finish, if_pos (pending.mpr isOpen), cut_upTo]
  · rw [finish, if_neg (mt pending.mp (by simpa using some)), blocks, if_neg (not_lt.mpr near)]

/-- A block that fits its length field fits its count field. -/
theorem length_le_of_fits {block : BlockData} (fits : (blockBytes block).length < 2 ^ 32) :
    block.length ≤ u32Max := by
  have few := length_le_length_encodeEntries block
  rw [length_blockBytes] at fits
  have max : u32Max = 2 ^ 32 - 1 := rfl
  omega

theorem mem_closeLast {closed : List BlockData} {last block : BlockData}
    (member : block ∈ closed ++ [last]) (filled : block ≠ []) : block ∈ closeLast closed last := by
  rcases closeLast_cases closed last with ⟨_, blocks⟩ | ⟨⟨rfl, _⟩, blocks⟩
  · rwa [blocks]
  · rw [blocks]
    rcases List.mem_append.mp member with inside | isLast
    · exact inside
    · exact absurd (List.mem_singleton.mp isLast) filled

theorem mem_of_mem_closeLast {closed : List BlockData} {last block : BlockData}
    (member : block ∈ closeLast closed last) : block ∈ closed ++ [last] := by
  rcases closeLast_cases closed last with ⟨_, blocks⟩ | ⟨_, blocks⟩
  · rwa [blocks] at member
  · rw [blocks] at member
    exact List.mem_append_left _ member

theorem countedLength_closeLast (closed : List BlockData) (last : BlockData) :
    countedLength closed ≤ countedLength (closeLast closed last) := by
  rcases closeLast_cases closed last with ⟨_, blocks⟩ | ⟨_, blocks⟩
  · rw [blocks, countedLength_append]
    exact Nat.le_add_right _ _
  · rw [blocks]

/-- **Writing all entries of a table** gives its blocks and their rows, or panics
because a block has too many entries or the blocks are too long to be counted. -/
theorem write_new (blockSize : Nat) (entries : List (Key × Entry)) :
    (∃ writer, new.pushAll blockSize entries = .ok writer ∧
      writer.finish = .ok (upTo (cutBlocks blockSize entries) []) ∧
      (∀ block ∈ cutBlocks blockSize entries, block.length ≤ u32Max) ∧
      countedLength (cutBlocks blockSize entries) ≤ u64Max) ∨
    (new.pushAll blockSize entries = .error .panic ∨
      ∃ writer, new.pushAll blockSize entries = .ok writer ∧ writer.finish = .error .panic) ∧
      ((∃ block ∈ cutBlocks blockSize entries, u32Max < block.length) ∨
        u64Max < countedLength (cutBlocks blockSize entries)) := by
  rw [cutBlocks]
  have further := countedLength_closeLast (cutFrom blockSize [] entries).1
    (cutFrom blockSize [] entries).2
  rcases pushAll_upTo blockSize entries [] [] (Nat.zero_le _) (Nat.zero_le _) with
    ⟨pushed, few, near⟩ | ⟨failed, cause⟩
  · rw [List.nil_append] at pushed near
    by_cases far : countedLength (closeLast (cutFrom blockSize [] entries).1
        (cutFrom blockSize [] entries).2) > u64Max
    · refine .inr ⟨.inr ⟨_, pushed, ?_⟩, .inr far⟩
      rw [finish_upTo _ _ near, if_pos far]
    · refine .inl ⟨_, pushed, ?_, fun block member => few block (mem_of_mem_closeLast member),
        not_lt.mp far⟩
      rw [finish_upTo _ _ near, if_neg far]
  · refine .inr ⟨.inl failed, ?_⟩
    rcases cause with ⟨block, member, crowded⟩ | far
    · refine .inl ⟨block, mem_closeLast member ?_, crowded⟩
      rintro rfl
      exact absurd crowded (Nat.not_lt.mpr (Nat.zero_le _))
    · rw [List.nil_append] at far
      exact .inr (by omega)

end TableWriter

/-! ## The bytes of a created table -/

/-- The parts of the table that is created from sorted entries. -/
def tableParts (sizing : BloomSizing) (entries : List (Key × Entry)) (bloomFp : Float)
    (blockSize : Nat) : TableParts :=
  ⟨cutBlocks blockSize entries, tableFilter sizing bloomFp entries⟩

theorem flatten_cutBlocks (blockSize : Nat) (entries : List (Key × Entry)) :
    (cutBlocks blockSize entries).flatten = entries := by
  have joined := cutFrom_flatten blockSize [] entries
  rw [cutBlocks]
  rcases closeLast_cases (cutFrom blockSize [] entries).1 (cutFrom blockSize [] entries).2 with
    ⟨_, blocks⟩ | ⟨⟨none, _⟩, blocks⟩
  · rw [blocks, List.flatten_append, List.flatten_singleton, joined, List.nil_append]
  · rw [none, List.append_nil, List.nil_append] at joined
    rw [blocks, joined]

theorem cutBlocks_cases (blockSize : Nat) (entries : List (Key × Entry)) :
    cutBlocks blockSize entries = [[]] ∨
      cutBlocks blockSize entries ≠ [] ∧ [] ∉ cutBlocks blockSize entries := by
  have filled := cutFrom_filled blockSize [] entries
  rw [cutBlocks]
  generalize (cutFrom blockSize [] entries).1 = closed at filled ⊢
  generalize (cutFrom blockSize [] entries).2 = last
  rcases closeLast_cases closed last with ⟨isOpen, blocks⟩ | ⟨⟨_, some⟩, blocks⟩
  · rw [blocks]
    rcases eq_or_ne last [] with rfl | nonempty
    · rcases isOpen with absurd_ | rfl
      · exact absurd rfl absurd_
      · exact .inl rfl
    · refine .inr ⟨by simp, ?_⟩
      simpa [nonempty.symm] using filled
  · rw [blocks]
    exact .inr ⟨some, filled⟩

section Create

variable {sizing : BloomSizing} {entries : List (Key × Entry)} {bloomFp : Float} {blockSize : Nat}

/-- **Creating a table yields the bytes and the handle of its parts.** -/
theorem create_eq (valid : ValidRun entries)
    (blocksFit : ∀ block ∈ cutBlocks blockSize entries, (blockBytes block).length < 2 ^ 32)
    (fileFits : (tableParts sizing entries bloomFp blockSize).bytes.length ≤ u64Max) :
    TableHandle.create sizing entries bloomFp blockSize =
      .ok ((tableParts sizing entries bloomFp blockSize).bytes,
        (tableParts sizing entries bloomFp blockSize).handle) := by
  have total := (tableParts sizing entries bloomFp blockSize).length_bytes
  have near : ((cutBlocks blockSize entries).flatMap blockBytes).length ≤ u64Max := by
    change (tableParts sizing entries bloomFp blockSize).data.length ≤ u64Max
    omega
  have indexNear : ¬ ((tableParts sizing entries bloomFp blockSize).data.length +
      (encodeIndex (tableParts sizing entries bloomFp blockSize).index).length > u64Max) := by
    omega
  have counted := countedLength_of_fits blocksFit
  have few : ¬ ∃ block ∈ cutBlocks blockSize entries, u32Max < block.length := by
    rintro ⟨block, member, crowded⟩
    have short := TableWriter.length_le_of_fits (blocksFit block member)
    omega
  obtain ⟨writer, pushed, finished, _⟩ :=
    (TableWriter.write_new blockSize entries).resolve_right fun failed =>
      failed.2.elim few fun far => by omega
  rw [TableHandle.create]
  simp only [valid.insertionSort_eq, pushed, finished, TableWriter.upTo,
    rowsFrom_of_fits blocksFit, counted]
  refine (if_neg indexNear).trans ?_
  rw [TableParts.handle, show (tableParts sizing entries bloomFp blockSize).blocks.flatten = entries
    from flatten_cutBlocks blockSize entries]
  rfl

/-- The parts of a created table hold its entries. -/
theorem tableParts_holds (valid : ValidRun entries)
    (blocksFit : ∀ block ∈ cutBlocks blockSize entries, (blockBytes block).length < 2 ^ 32)
    (few : (cutBlocks blockSize entries).length < 2 ^ 32)
    (filterFits : (tableFilter sizing bloomFp entries).bits.length < 2 ^ 32)
    (fileFits : (tableParts sizing entries bloomFp blockSize).bytes.length ≤ u64Max) :
    (tableParts sizing entries bloomFp blockSize).Holds entries where
  valid := valid
  flatten_eq := flatten_cutBlocks blockSize entries
  cut := cutBlocks_cases blockSize entries
  blocksFit := blocksFit
  few := few
  hashed := by
    simp only [tableParts, tableFilter, BloomFilter.hashCount_insertAll]
    exact ⟨sizing.hashCount_ge _ _, sizing.hashCount_le _ _⟩
  filterFits := filterFits
  filtered := fun pair member => BloomFilter.mightContain_insertAll
    (BloomFilter.length_bits_new_pos _ _ _) (List.mem_map_of_mem member)
  fileFits := fileFits

/-- **A table survives writing and reading.**  Unless it would take more bytes
than any file has, creating a table succeeds; opening its file gives the index,
filter and key range that creating it returned; iterating yields the entries in
order; and a lookup through either handle, without a cache or through a cache
of blocks of the table files, returns the entry of the key. -/
theorem table_round_trip (sizing : BloomSizing) (bloomFp : Float) (blockSize : Nat)
    {entries : List (Key × Entry)} (valid : ValidRun entries)
    (blocksFit : ∀ block ∈ cutBlocks blockSize entries, (blockBytes block).length < 2 ^ 32)
    (few : (cutBlocks blockSize entries).length < 2 ^ 32)
    (filterFits : (tableFilter sizing bloomFp entries).bits.length < 2 ^ 32) :
    u64Max < (tableParts sizing entries bloomFp blockSize).bytes.length ∨
      ∃ file handle reopened,
        TableHandle.create sizing entries bloomFp blockSize = .ok (file, handle) ∧
        TableHandle.openFile file = .ok reopened ∧
        (reopened.index = handle.index ∧ reopened.bloom = handle.bloom ∧
          reopened.smallest = handle.smallest ∧ reopened.largest = handle.largest) ∧
        (∃ iterator, TableIterator.new reopened (some file) = .ok iterator ∧
          ∀ count, iterator.collect (some file) count = (entries.map .ok).take count) ∧
        ∀ (id : UInt64) (key : Key) (files : UInt64 → Option Bytes) (cache : Option BlockCache),
          files id = some file → TableParts.CoherentWith files cache →
            (handle.get id (some file) key cache).1 = .ok (valueAt entries key) ∧
            (reopened.get id (some file) key cache).1 = .ok (valueAt entries key) := by
  rcases lt_or_ge u64Max (tableParts sizing entries bloomFp blockSize).bytes.length with
    tooLong | fileFits
  · exact .inl tooLong
  · have holds := tableParts_holds valid blocksFit few filterFits fileFits
    obtain ⟨iterator, isNew, items⟩ := holds.exists_iterator
    refine .inr ⟨_, _, _, create_eq valid blocksFit fileFits, holds.openFile_bytes,
      ⟨rfl, rfl, rfl, rfl⟩, ⟨iterator, isNew, fun count => ?_⟩, ?_⟩
    · rw [TableIterator.collect_eq_take, items]
    · intro id key files cache here coherent
      obtain ⟨_, found, _⟩ := holds.get_eq here coherent key
      rw [found]
      exact ⟨rfl, rfl⟩

end Create

/-- A value and a tombstone, for a table of two blocks. -/
def twoEntries : List (Key × Entry) := [([97], .value [49]), ([98], .tombstone)]

/-- With a block size of one byte, each entry gets a block of its own; the
tombstone of the second block is found through the handle of the created table. -/
theorem table_round_trip_two_blocks :
    (cutBlocks 1 twoEntries).length = 2 ∧
      ∃ file handle, TableHandle.create smallSizing twoEntries 0.01 1 = .ok (file, handle) ∧
        (handle.get 7 (some file) [98] none).1 = .ok (some .tombstone) := by
  have valid : ValidRun twoEntries := ⟨by decide, by decide⟩
  have short : (tableParts smallSizing twoEntries 0.01 1).bytes.length ≤ u64Max := by
    decide +kernel
  refine ⟨by decide +kernel, ?_⟩
  obtain tooLong | ⟨file, handle, reopened, created, _, _, _, lookups⟩ :=
    table_round_trip smallSizing 0.01 1 valid (by decide +kernel) (by decide +kernel)
      (by decide +kernel)
  · exact absurd short (not_le.mpr tooLong)
  · have found := (lookups 7 [98] (fun _ => some file) none rfl nofun).1
    exact ⟨file, handle, created, found⟩

end LsmStore
