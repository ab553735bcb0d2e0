import LsmStore.TableFile

/-!
# The rows of an index

An index has one row for each data block, with the keys at its two ends.  What a
lookup does with the rows depends on nothing else: if they give the key ranges of
the blocks that a run of entries was cut into (`TableRows`), a lookup finds the
block that decides about the key, and, if that block can be read, the key's entry.
-/

set_option autoImplicit false

namespace LsmStore

open Foundation

/-! ## The ends of a run -/

theorem exists_firstKey {entries : List (Key × Entry)} (nonempty : entries ≠ []) :
    ∃ pair ∈ entries, pair.1 = firstKey entries := by
  cases entries with
  | nil => exact absurd rfl nonempty
  | cons pair rest => exact ⟨pair, List.mem_cons_self, rfl⟩

theorem exists_lastKey {entries : List (Key × Entry)} (nonempty : entries ≠ []) :
    ∃ pair ∈ entries, pair.1 = lastKey entries := by
  refine ⟨entries.getLast nonempty, List.getLast_mem nonempty, ?_⟩
  rw [lastKey, List.getLast?_eq_some_getLast nonempty]
  rfl

theorem firstKey_append {front : List (Key × Entry)} (nonempty : front ≠ [])
    (back : List (Key × Entry)) : firstKey (front ++ back) = firstKey front := by
  cases front with
  | nil => exact absurd rfl nonempty
  | cons pair front => rfl

theorem lastKey_append {back : List (Key × Entry)} (nonempty : back ≠ [])
    (front : List (Key × Entry)) : lastKey (front ++ back) = lastKey back := by
  rw [lastKey, List.getLast?_append_of_ne_nil _ nonempty, lastKey]

/-! ## Searching the blocks of a table -/

section Comparisons

variable {key : Key} {pair : Key × Entry} {entry : IndexEntry}

theorem compareEntry_eq_lt : compareEntry key pair = .lt ↔ pair.1 < key := by
  rw [compareEntry]
  split_ifs <;> simp [*]

theorem compareEntry_eq_eq : compareEntry key pair = .eq ↔ pair.1 = key := by
  rw [compareEntry]
  split_ifs with before <;> simp [*, ne_of_lt]

theorem compareEntry_eq_gt : compareEntry key pair = .gt ↔ key < pair.1 := by
  rw [compareEntry]
  split_ifs with before same
  · simp [le_of_lt before]
  · simp [same]
  · simp [lt_of_le_of_ne (not_lt.mp before) (Ne.symm same)]

theorem compareKey_eq_gt : entry.compareKey key = .gt ↔ key < entry.firstKey := by
  rw [IndexEntry.compareKey]
  split_ifs <;> simp [*]

theorem compareKey_eq_lt :
    entry.compareKey key = .lt ↔ entry.firstKey ≤ key ∧ entry.lastKey < key := by
  rw [IndexEntry.compareKey]
  split_ifs with before after
  · simp [before]
  · simp [not_lt.mp before, after]
  · simp [not_lt.mp after]

theorem compareKey_eq_eq :
    entry.compareKey key = .eq ↔ entry.firstKey ≤ key ∧ key ≤ entry.lastKey := by
  rw [IndexEntry.compareKey]
  split_ifs with before after
  · simp [before]
  · simp [after]
  · simp [not_lt.mp before, not_lt.mp after]

end Comparisons

/-- The entry found in a sorted block is the entry of the key. -/
theorem searchBlock_eq_valueAt {block : BlockData} (sorted : KeySorted block) (key : Key) :
    searchBlock block key = valueAt block key := by
  have partitioned : Partitioned (compareEntry key) block := by
    refine List.Pairwise.imp (fun {first second} before => ⟨?_, ?_⟩) sorted
    · rw [compareEntry_eq_gt, compareEntry_eq_gt]
      exact fun greater => lt_trans greater before
    · rw [compareEntry_eq_lt, compareEntry_eq_lt]
      exact fun smaller => lt_trans before smaller
  rw [searchBlock]
  cases found : binarySearchBy (compareEntry key) block with
  | none =>
      symm
      refine valueAt_eq_none_iff.mpr fun pair member same => ?_
      obtain ⟨position, isFound⟩ :=
        exists_binarySearchBy partitioned member (compareEntry_eq_eq.mpr same)
      rw [found] at isFound
      cases isFound
  | some position =>
      have same := compareEntry_eq_eq.mp (compare_binarySearchBy found)
      symm
      apply sorted.valueAt_of_mem
      rw [← same]
      exact List.get_mem block position

/-- A key inside the range of one piece of a sorted run is looked up in that piece. -/
theorem valueAt_piece {front back : List (Key × Entry)} {block : BlockData}
    (sorted : KeySorted (front ++ (block ++ back))) {key : Key} (filled : block ≠ [])
    (lower : firstKey block ≤ key) (upper : key ≤ lastKey block) :
    valueAt (front ++ (block ++ back)) key = valueAt block key := by
  obtain ⟨first, firstInside, isFirst⟩ := exists_firstKey filled
  obtain ⟨last, lastInside, isLast⟩ := exists_lastKey filled
  obtain ⟨_, sortedRest, frontBefore⟩ := List.pairwise_append.mp sorted
  obtain ⟨sortedBlock, _, blockBefore⟩ := List.pairwise_append.mp sortedRest
  -- a pair with this key can only be in the block
  have inBlock : ∀ entry, (key, entry) ∈ front ++ (block ++ back) → (key, entry) ∈ block := by
    intro entry member
    rcases List.mem_append.mp member with early | late
    · have before := frontBefore _ early first (List.mem_append_left _ firstInside)
      rw [isFirst] at before
      exact absurd (lt_of_lt_of_le before lower) (lt_irrefl _)
    · rcases List.mem_append.mp late with inside | behind
      · exact inside
      · have after := blockBefore last lastInside _ behind
        rw [isLast] at after
        exact absurd (lt_of_le_of_lt upper after) (lt_irrefl _)
  ext entry
  rw [sorted.valueAt_eq_some_iff, KeySorted.valueAt_eq_some_iff sortedBlock]
  exact ⟨inBlock entry, fun inside =>
    List.mem_append_right _ (List.mem_append_left _ inside)⟩

/-- A piece of a run is a run. -/
theorem ValidRun.sublist {run piece : List (Key × Entry)} (valid : ValidRun run)
    (part : piece.Sublist run) : ValidRun piece :=
  ⟨List.Pairwise.sublist part valid.sorted, fun pair member =>
    valid.keysNonempty pair (part.subset member)⟩

/-! ## Rows and blocks -/

/-- The row gives the keys at the two ends of the block. -/
structure SameRange (entry : IndexEntry) (block : BlockData) : Prop where
  firstKey_eq : entry.firstKey = firstKey block
  lastKey_eq : entry.lastKey = lastKey block

/-- The rows of a sorted run follow one another in key order. -/
theorem partitioned_rows {index : List IndexEntry} {blocks : List BlockData}
    (ranged : List.Forall₂ SameRange index blocks) (valid : ValidRun blocks.flatten)
    (filled : [] ∉ blocks) (key : Key) : Partitioned (IndexEntry.compareKey key) index := by
  induction ranged with
  | nil => exact List.Pairwise.nil
  | @cons row block index rest range others ih =>
      rw [List.flatten_cons] at valid
      have before := (List.pairwise_append.mp valid.sorted).2.2
      have validBlock := valid.sublist (List.sublist_append_left block rest.flatten)
      have validRest := valid.sublist (List.sublist_append_right block rest.flatten)
      refine List.pairwise_cons.mpr ⟨?_, ih validRest (fun empty =>
        filled (List.mem_cons_of_mem _ empty))⟩
      intro entry member
      obtain ⟨i, indexed, rfl⟩ := List.mem_iff_getElem.mp member
      have inside : i < rest.length := others.length_eq ▸ indexed
      have range' := others.get indexed inside
      have isBlock : rest[i] ∈ rest := List.getElem_mem inside
      have nonempty : block ≠ [] := fun empty => filled (empty ▸ List.mem_cons_self)
      have otherNonempty : rest[i] ≠ [] := fun empty =>
        filled (List.mem_cons_of_mem _ (empty ▸ isBlock))
      obtain ⟨first, firstInside, firstKey_eq⟩ := exists_firstKey otherNonempty
      obtain ⟨last, lastInside, lastKey_eq⟩ := exists_lastKey nonempty
      have apart : lastKey block < firstKey rest[i] := by
        rw [← lastKey_eq, ← firstKey_eq]
        exact before last lastInside first (List.mem_flatten_of_mem isBlock firstInside)
      have ordered := validBlock.firstKey_le_lastKey
      have isFirst : index[i].firstKey = firstKey rest[i] := range'.firstKey_eq
      rw [compareKey_eq_gt, compareKey_eq_gt, compareKey_eq_lt, compareKey_eq_lt, isFirst,
        range.firstKey_eq, range.lastKey_eq]
      refine ⟨fun greater => ?_, fun smaller => ⟨?_, ?_⟩⟩
      · exact lt_trans (lt_of_lt_of_le greater ordered) apart
      · exact ordered.trans (le_of_lt (lt_of_lt_of_le apart smaller.1))
      · exact lt_of_lt_of_le apart smaller.1

/-- What a handle says about the blocks of its table: the rows of its index give
their key ranges, its range is that of all entries, and its filter knows every key.
A table without entries has one empty block. -/
structure TableRows (handle : TableHandle) (blocks : List BlockData) : Prop where
  ranged : List.Forall₂ SameRange handle.index blocks
  valid : ValidRun blocks.flatten
  cut : blocks = [[]] ∨ blocks ≠ [] ∧ [] ∉ blocks
  smallest_eq : handle.smallest = firstKey blocks.flatten
  largest_eq : handle.largest = lastKey blocks.flatten
  filtered : ∀ pair ∈ blocks.flatten, handle.bloom.mightContain pair.1 = true

namespace TableRows

variable {handle : TableHandle} {blocks : List BlockData}

theorem containsRange_cases (rows : TableRows handle blocks) (key : Key) :
    (handle.containsRange key = false ∧ valueAt blocks.flatten key = none) ∨
      (handle.containsRange key = true ∧ [] ∉ blocks) := by
  rw [TableHandle.containsRange, rows.smallest_eq, rows.largest_eq]
  split
  · rename_i empty
    refine .inl ⟨rfl, ?_⟩
    have none : blocks.flatten = [] := by
      by_contra nonempty
      exact rows.valid.firstKey_ne_nil nonempty empty.1
    rw [none, valueAt_nil]
  · rename_i notEmpty
    by_cases range : firstKey blocks.flatten ≤ key ∧ key ≤ lastKey blocks.flatten
    · refine .inr ⟨by rwa [decide_eq_true_eq], ?_⟩
      rcases rows.cut with single | filled
      · refine absurd ⟨?_, ?_, ?_⟩ notEmpty
        · rw [single]
          rfl
        · rw [single]
          rfl
        · rw [rows.ranged.length_eq, single]
          rfl
      · exact filled.2
    · refine .inl ⟨by rwa [decide_eq_false_iff_not], ?_⟩
      by_contra found
      exact range (rows.valid.range_of_valueAt found)

/-- A lookup in the index finds the block that decides about the key. -/
theorem blockForKey_cases (rows : TableRows handle blocks) (filled : [] ∉ blocks) (key : Key) :
    (handle.blockForKey key = none ∧ valueAt blocks.flatten key = none) ∨
      ∃ position block, handle.blockForKey key = some position ∧
        blocks[position.val]? = some block ∧ firstKey block ≤ key ∧
        searchBlock block key = valueAt blocks.flatten key := by
  have partitioned := partitioned_rows rows.ranged rows.valid filled key
  cases found : handle.blockForKey key with
  | none =>
      refine .inl ⟨rfl, ?_⟩
      refine valueAt_eq_none_iff.mpr fun pair member same => ?_
      obtain ⟨block, inBlocks, inBlock⟩ := List.mem_flatten.mp member
      obtain ⟨i, inside, rfl⟩ := List.mem_iff_getElem.mp inBlocks
      have indexed : i < handle.index.length := rows.ranged.length_eq ▸ inside
      have row := rows.ranged.get indexed inside
      have validBlock := rows.valid.sublist (List.sublist_flatten_of_mem inBlocks)
      have matching : (handle.index.get ⟨i, indexed⟩).compareKey key = .eq := by
        rw [compareKey_eq_eq, row.firstKey_eq, row.lastKey_eq, ← same]
        exact ⟨validBlock.firstKey_le inBlock, validBlock.le_lastKey inBlock⟩
      obtain ⟨position, isFound⟩ :=
        exists_binarySearchBy partitioned (List.get_mem _ ⟨i, indexed⟩) matching
      rw [TableHandle.blockForKey, isFound] at found
      cases found
  | some position =>
      obtain ⟨i, indexed⟩ := position
      have inside : i < blocks.length := rows.ranged.length_eq ▸ indexed
      have row := rows.ranged.get indexed inside
      have matching := compareKey_eq_eq.mp (compare_binarySearchBy found)
      rw [row.firstKey_eq, row.lastKey_eq] at matching
      refine .inr ⟨_, blocks[i], rfl, List.getElem?_eq_getElem inside, matching.1, ?_⟩
      have member : blocks[i] ∈ blocks := List.getElem_mem inside
      have split : blocks.flatten = (blocks.take i).flatten ++
          (blocks[i] ++ (blocks.drop (i + 1)).flatten) := by
        rw [← List.flatten_cons, ← List.flatten_append, List.cons_getElem_drop_succ,
          List.take_append_drop]
      have sorted := rows.valid.sorted
      rw [split] at sorted
      rw [searchBlock_eq_valueAt (rows.valid.sublist (List.sublist_flatten_of_mem member)).sorted,
        split]
      exact (valueAt_piece sorted (fun empty => filled (empty ▸ member)) matching.1
        matching.2).symm

end TableRows

/-! ## Loading a block through a cache -/

section Loading

variable {handle : TableHandle} {file : Option Bytes} {id : UInt64} {cache : Option BlockCache}
  {Cached : BlockKey → BlockData → Prop}

/-- A cache, if there is one, holds only blocks as they should be. -/
def CacheKeeps (Cached : BlockKey → BlockData → Prop) (cache : Option BlockCache) : Prop :=
  ∀ resident ∈ cache, resident.Keeps Cached

/-- Loading a block gives the block in the file, from the cache or not. -/
theorem TableHandle.loadBlock_eq {position : Fin handle.index.length} {block : BlockData}
    (read : readBlock file (handle.index.get position) = .ok block)
    (hit : ∀ other, Cached ⟨id, (handle.index.get position).offset⟩ other → other = block)
    (cached : Cached ⟨id, (handle.index.get position).offset⟩ block)
    (keeps : CacheKeeps Cached cache) :
    ∃ cache', handle.loadBlock id file position cache = (.ok block, cache') ∧
      CacheKeeps Cached cache' ∧ cache'.isSome = cache.isSome := by
  cases cache with
  | none => exact ⟨none, by rw [TableHandle.loadBlock, read], keeps, rfl⟩
  | some resident =>
      have keepsHere := keeps resident rfl
      simp only [TableHandle.loadBlock]
      cases lookup : resident.get ⟨id, (handle.index.get position).offset⟩ with
      | mk found after =>
          have keepsAfter := keepsHere.get ⟨id, (handle.index.get position).offset⟩
          rw [lookup] at keepsAfter
          cases found with
          | some other =>
              obtain rfl := hit other (keepsHere.of_get (congrArg Prod.fst lookup))
              exact ⟨some after, rfl, by rintro _ ⟨⟩; exact keepsAfter, rfl⟩
          | none =>
              rw [read]
              refine ⟨_, rfl, ?_, rfl⟩
              rintro _ ⟨⟩
              exact keepsAfter.insert cached

/-- **A lookup in a table gives the entry of the key**, with or without a cache, if
the block that decides about the key can be read. -/
theorem TableRows.get_eq {blocks : List BlockData} (rows : TableRows handle blocks) {key : Key}
    (readable : ∀ position block, handle.blockForKey key = some position →
      blocks[position.val]? = some block → firstKey block ≤ key →
        readBlock file (handle.index.get position) = .ok block ∧
        (∀ other, Cached ⟨id, (handle.index.get position).offset⟩ other → other = block) ∧
        Cached ⟨id, (handle.index.get position).offset⟩ block)
    (keeps : CacheKeeps Cached cache) :
    ∃ cache', handle.get id file key cache = (.ok (valueAt blocks.flatten key), cache') ∧
      CacheKeeps Cached cache' ∧ cache'.isSome = cache.isSome := by
  rw [TableHandle.get]
  rcases rows.containsRange_cases key with ⟨outside, absent⟩ | ⟨inside, filled⟩
  · rw [outside, absent]
    exact ⟨cache, rfl, keeps, rfl⟩
  · rw [inside]
    cases known : handle.bloom.mightContain key with
    | false =>
        have absent : valueAt blocks.flatten key = none := by
          refine valueAt_eq_none_iff.mpr fun pair member same => ?_
          have filtered := rows.filtered pair member
          rw [same] at filtered
          exact Bool.false_ne_true (known.symm.trans filtered)
        rw [absent]
        exact ⟨cache, rfl, keeps, rfl⟩
    | true =>
        rcases rows.blockForKey_cases filled key with
          ⟨noBlock, absent⟩ | ⟨position, block, isPosition, isBlock, low, search⟩
        · rw [noBlock, absent]
          exact ⟨cache, rfl, keeps, rfl⟩
        · obtain ⟨read, hit, cached⟩ := readable position block isPosition isBlock low
          obtain ⟨cache', loads, still, same⟩ :=
            TableHandle.loadBlock_eq read hit cached keeps
          simp only [isPosition, loads, search, Bool.not_true, Bool.false_eq_true, if_false]
          exact ⟨cache', rfl, still, same⟩

/-- A key that has an entry is not skipped. -/
theorem TableRows.not_skipped {blocks : List BlockData} (rows : TableRows handle blocks) {key : Key}
    (found : valueAt blocks.flatten key ≠ none) :
    handle.containsRange key = true ∧ handle.bloom.mightContain key = true := by
  constructor
  · rcases rows.containsRange_cases key with ⟨_, absent⟩ | ⟨inside, _⟩
    · exact absurd absent found
    · exact inside
  · obtain ⟨entry, isEntry⟩ := Option.ne_none_iff_exists'.mp found
    exact rows.filtered (key, entry) (mem_of_valueAt isEntry)

end Loading

end LsmStore
