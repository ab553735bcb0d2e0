import LsmStore.Bloom
import LsmStore.Memtable

/-!
# Table formats

The engine uses a sorted string table through a small interface: a table is
created from its entries, opened from its file, and asked for its key range,
its filter, an entry, or all entries in order.  The engine model is written
over that interface (`TableFormat`), so it can be run over the byte format of
the table files and over a format that only keeps a table's entries.

A format is sound (`TableFormat.Sound`) when what it answers is what the
entries say.  `contentTables` keeps entries, filter and file size; it is sound
for every run of entries with strictly increasing non-empty keys.
-/

set_option autoImplicit false

namespace LsmStore

open Foundation

/-- The interface of a table implementation. -/
structure TableFormat where
  /-- The contents of a completed table file. -/
  File : Type
  /-- What an open table keeps in memory. -/
  Handle : Type
  /-- The block cache shared by all tables. -/
  Cache : Type
  emptyCache : Options → Cache
  create : Options → List (Key × Entry) → Except Failure (File × Handle)
  openFile : File → Except Error Handle
  smallestKey : Handle → Key
  largestKey : Handle → Key
  sizeBytes : Handle → Nat
  containsRange : Handle → Key → Bool
  mightContain : Handle → Key → Bool
  /-- Looks a key up in the table with the given id, through the cache. -/
  get : UInt64 → Handle → Option File → Key → Cache → Except Error (Option Entry) × Cache
  /-- Opens an iterator; its items end with the first read error. -/
  iter : Handle → Option File → Except Error (List (Except Error (Key × Entry)))

/-- The smallest key of a run of entries, empty for an empty run. -/
def firstKey (entries : List (Key × Entry)) : Key := (entries.head?.map (·.1)).getD []

/-- The largest key of a run of entries, empty for an empty run. -/
def lastKey (entries : List (Key × Entry)) : Key := (entries.getLast?.map (·.1)).getD []

/-- Strictly increasing, non-empty keys. -/
structure ValidRun (entries : List (Key × Entry)) : Prop where
  sorted : KeySorted entries
  keysNonempty : ∀ pair ∈ entries, pair.1 ≠ []

/-- What makes a format trustworthy on the entries that `Fits` admits: a
relation that says which entries a handle and a file hold, an invariant of the
cache, and the answers that follow from them. -/
structure TableFormat.Sound (fmt : TableFormat)
    (Fits : Options → List (Key × Entry) → Prop) where
  Holds : fmt.Handle → fmt.File → List (Key × Entry) → Prop
  Coherent : (UInt64 → Option fmt.File) → fmt.Cache → Prop
  valid : ∀ {handle file entries}, Holds handle file entries → ValidRun entries
  create_ok : ∀ {options entries}, ValidRun entries → Fits options entries →
    ∃ file handle, fmt.create options entries = .ok (file, handle) ∧ Holds handle file entries
  openFile_ok : ∀ {handle file entries}, Holds handle file entries →
    fmt.openFile file = .ok handle
  smallestKey_eq : ∀ {handle file entries}, Holds handle file entries →
    fmt.smallestKey handle = firstKey entries
  largestKey_eq : ∀ {handle file entries}, Holds handle file entries →
    fmt.largestKey handle = lastKey entries
  not_skipped : ∀ {handle file entries key}, Holds handle file entries →
    valueAt entries key ≠ none →
      fmt.containsRange handle key = true ∧ fmt.mightContain handle key = true
  get_ok : ∀ {handle file entries files cache} (id : UInt64) (key : Key),
    Holds handle file entries → files id = some file → Coherent files cache →
      ∃ cache', fmt.get id handle (some file) key cache = (.ok (valueAt entries key), cache') ∧
        Coherent files cache'
  iter_ok : ∀ {handle file entries}, Holds handle file entries →
    fmt.iter handle (some file) = .ok (entries.map .ok)
  coherent_empty : ∀ files options, Coherent files (fmt.emptyCache options)
  coherent_create : ∀ {files cache} (id : UInt64) (file : fmt.File), Coherent files cache →
    files id = none → Coherent (Function.update files id (some file)) cache

/-! ## Key ranges of runs -/

namespace ValidRun

variable {entries : List (Key × Entry)}

theorem firstKey_le (valid : ValidRun entries) {pair : Key × Entry} (member : pair ∈ entries) :
    firstKey entries ≤ pair.1 := by
  cases entries with
  | nil => cases member
  | cons head rest => exact valid.sorted.head_le member

theorem le_lastKey (valid : ValidRun entries) {pair : Key × Entry} (member : pair ∈ entries) :
    pair.1 ≤ lastKey entries := by
  have nonempty : entries ≠ [] := List.ne_nil_of_mem member
  have isLast := List.getLast?_eq_some_getLast nonempty
  unfold lastKey
  rw [isLast]
  exact valid.sorted.le_getLast isLast member

/-- The key range of a run that holds anything does not contain the empty key. -/
theorem firstKey_ne_nil (valid : ValidRun entries) (nonempty : entries ≠ []) :
    firstKey entries ≠ [] := by
  cases entries with
  | nil => exact absurd rfl nonempty
  | cons head rest => exact valid.keysNonempty head List.mem_cons_self

theorem firstKey_le_lastKey (valid : ValidRun entries) : firstKey entries ≤ lastKey entries := by
  cases entries with
  | nil => exact le_refl _
  | cons head rest => exact valid.le_lastKey List.mem_cons_self

theorem range_of_valueAt (valid : ValidRun entries) {key : Key}
    (found : valueAt entries key ≠ none) :
    firstKey entries ≤ key ∧ key ≤ lastKey entries := by
  obtain ⟨entry, isEntry⟩ := Option.ne_none_iff_exists'.mp found
  have member := mem_of_valueAt isEntry
  exact ⟨valid.firstKey_le member, valid.le_lastKey member⟩

theorem insertionSort_eq (valid : ValidRun entries) :
    entries.insertionSort (fun first second => first.1 ≤ second.1) = entries :=
  List.Pairwise.insertionSort_eq (valid.sorted.imp fun before => le_of_lt before)

end ValidRun

theorem validRun_memtable {memtable : MemTable} (keys : ∀ pair ∈ memtable.iter, pair.1 ≠ []) :
    ValidRun memtable.iter :=
  ⟨memtable.iter_sorted, keys⟩

/-! ## Tables as their entries -/

/-- A table file reduced to what the engine can learn from it. -/
structure ContentFile where
  entries : List (Key × Entry)
  bloom : BloomFilter
  sizeBytes : Nat

/-- The in-memory part of a table. -/
structure ContentHandle where
  smallest : Key
  largest : Key
  bloom : BloomFilter
  sizeBytes : Nat

/-- What opening a table file reads into memory. -/
def ContentFile.handle (file : ContentFile) : ContentHandle :=
  ⟨firstKey file.entries, lastKey file.entries, file.bloom, file.sizeBytes⟩

/-- Whether a key falls into the table's range; an empty table has none. -/
def ContentHandle.containsRange (handle : ContentHandle) (key : Key) : Bool :=
  if handle.smallest = [] ∧ handle.largest = [] then false
  else decide (handle.smallest ≤ key ∧ key ≤ handle.largest)

/-- The format that keeps a table's entries, filter and file size.  How many
bytes a table file takes is a parameter: it only decides which level is
compacted. -/
def contentTables (sizing : BloomSizing) (fileSize : Options → List (Key × Entry) → Nat) :
    TableFormat where
  File := ContentFile
  Handle := ContentHandle
  Cache := Unit
  emptyCache _ := ()
  create options entries :=
    let collected := entries.insertionSort fun first second => first.1 ≤ second.1
    let bloom := BloomFilter.new sizing (max collected.length 1) options.bloomFalsePositiveRate
    let file : ContentFile :=
      ⟨collected, bloom.insertAll (collected.map (·.1)), fileSize options collected⟩
    .ok (file, file.handle)
  openFile file := .ok file.handle
  smallestKey handle := handle.smallest
  largestKey handle := handle.largest
  sizeBytes handle := handle.sizeBytes
  containsRange handle key := handle.containsRange key
  mightContain handle key := handle.bloom.mightContain key
  get _ handle file key cache :=
    if !handle.containsRange key then (.ok none, cache)
    else if !handle.bloom.mightContain key then (.ok none, cache)
    else
      match file with
      | none => (.error (.io "no such file"), cache)
      | some file => (.ok (valueAt file.entries key), cache)
  iter _ file :=
    match file with
    | none => .error (.io "no such file")
    | some file => .ok (file.entries.map .ok)

/-- The file holds the entries, the handle is that of the file, and the filter
knows every key. -/
structure ContentHolds (handle : ContentHandle) (file : ContentFile)
    (entries : List (Key × Entry)) : Prop where
  entriesEq : file.entries = entries
  handleEq : handle = file.handle
  valid : ValidRun entries
  filtered : ∀ pair ∈ entries, file.bloom.mightContain pair.1 = true

theorem ContentHolds.not_skipped {handle : ContentHandle} {file : ContentFile}
    {entries : List (Key × Entry)} (holds : ContentHolds handle file entries) {key : Key}
    (found : valueAt entries key ≠ none) :
    handle.containsRange key = true ∧ handle.bloom.mightContain key = true := by
  obtain ⟨entry, isEntry⟩ := Option.ne_none_iff_exists'.mp found
  have member := mem_of_valueAt isEntry
  have first := holds.valid.firstKey_ne_nil (List.ne_nil_of_mem member)
  have range := holds.valid.range_of_valueAt found
  have smallest : handle.smallest = firstKey entries := by
    rw [holds.handleEq, ContentFile.handle, holds.entriesEq]
  have largest : handle.largest = lastKey entries := by
    rw [holds.handleEq, ContentFile.handle, holds.entriesEq]
  have known := holds.filtered (key, entry) member
  constructor
  · unfold ContentHandle.containsRange
    rw [smallest, largest, if_neg (fun empty => first empty.1), decide_eq_true_eq]
    exact range
  · rw [holds.handleEq]
    exact known

/-- A small filter, to run the engine on. -/
def smallSizing : BloomSizing where
  bitCount _ _ := 64
  hashCount _ _ := 1
  bitCount_ge _ _ := le_refl _
  hashCount_ge _ _ := le_refl _
  hashCount_le _ _ := by decide

/-- Tables kept as their entries, with the number of entries as file size. -/
def smallTables : TableFormat := contentTables smallSizing fun _ entries => entries.length

end LsmStore
