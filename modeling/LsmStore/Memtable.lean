import LsmStore.Foundation.SortedRun
import LsmStore.Record

/-!
# The memtable

The newest writes, kept sorted by key.  A deletion is recorded as a tombstone,
so that it can shadow older values in lower layers.
-/

set_option autoImplicit false

namespace LsmStore

open Foundation

/-- A single logical entry stored for a key. -/
inductive Entry where
  | value (bytes : Bytes)
  | tombstone
  deriving DecidableEq

/-- Number of value bytes an entry contributes to the memtable's size. -/
def Entry.valueLen : Entry → Nat
  | .value bytes => bytes.length
  | .tombstone => 0

/-- What a reader sees of the entry found for a key: a tombstone, like no entry
at all, is an absent key. -/
def visible : Option Entry → Option Bytes
  | some (.value bytes) => some bytes
  | some .tombstone => none
  | none => none

/-- An in-memory, sorted collection of the most recent writes. -/
structure MemTable where
  entries : SortedMap Key Entry
  /-- Running estimate of the key and value bytes held by the table. -/
  approximateSize : Nat

namespace MemTable

/-- An empty memtable. -/
def new : MemTable := ⟨SortedMap.empty, 0⟩

/-- Inserts an entry, keeping the size estimate consistent whether the key is
new or overwritten. -/
def insert (table : MemTable) (key : Key) (entry : Entry) : MemTable :=
  let added := key.length + entry.valueLen
  let approximateSize :=
    match table.entries.get? key with
    | some previous => table.approximateSize - previous.valueLen + entry.valueLen
    | none => table.approximateSize + added
  ⟨table.entries.insert key entry, approximateSize⟩

/-- Records a live value, replacing any existing entry. -/
def put (table : MemTable) (key value : Bytes) : MemTable := table.insert key (.value value)

/-- Records a deletion, also for a key that is not present. -/
def delete (table : MemTable) (key : Bytes) : MemTable := table.insert key .tombstone

/-- The entry stored for a key, if any. -/
def get (table : MemTable) (key : Key) : Option Entry := table.entries.get? key

/-- Whether the memtable holds no entries. -/
def isEmpty (table : MemTable) : Bool := table.entries.toRun.isEmpty

/-- The key/entry pairs in key order. -/
def iter (table : MemTable) : List (Key × Entry) := table.entries.toRun

@[simp] theorem get_new (key : Key) : new.get key = none := rfl

theorem get_insert (table : MemTable) (key wanted : Key) (entry : Entry) :
    (table.insert key entry).get wanted = if wanted = key then some entry else table.get wanted := by
  refine (SortedMap.get?_insert table.entries key wanted entry).trans ?_
  congr

theorem valueAt_iter (table : MemTable) (key : Key) : valueAt table.iter key = table.get key := rfl

theorem iter_sorted (table : MemTable) : KeySorted table.iter := table.entries.sorted

theorem isEmpty_iff {table : MemTable} : table.isEmpty = true ↔ table.iter = [] :=
  List.isEmpty_iff

theorem get_of_isEmpty {table : MemTable} (empty : table.isEmpty = true) (key : Key) :
    table.get key = none := by
  rw [← valueAt_iter, isEmpty_iff.mp empty, valueAt_nil]

/-- An insertion leaves the table non-empty. -/
theorem isEmpty_insert (table : MemTable) (key : Key) (entry : Entry) :
    (table.insert key entry).isEmpty = false := by
  by_contra empty
  have found := get_insert table key key entry
  rw [if_pos rfl, get_of_isEmpty (by simpa using empty)] at found
  cases found

theorem approximateSize_insert_le (table : MemTable) (key : Key) (entry : Entry) :
    (table.insert key entry).approximateSize ≤
      table.approximateSize + (key.length + entry.valueLen) := by
  unfold insert
  cases table.entries.get? key with
  | none => exact le_refl _
  | some previous =>
      change table.approximateSize - previous.valueLen + entry.valueLen ≤ _
      omega

/-- A table filled with the pairs of a sorted run. -/
def ofRun (run : List (Key × Entry)) : MemTable :=
  run.foldl (fun table pair =>
    match pair.2 with
    | .value bytes => table.put pair.1 bytes
    | .tombstone => table.delete pair.1) new

theorem ofRun_step (table : MemTable) (pair : Key × Entry) :
    (match pair.2 with
      | .value bytes => table.put pair.1 bytes
      | .tombstone => table.delete pair.1) = table.insert pair.1 pair.2 := by
  cases pair.2 <;> rfl

theorem get_foldl_insert {run : List (Key × Entry)} (sorted : KeySorted run) (table : MemTable)
    (key : Key) :
    (run.foldl (fun table pair => table.insert pair.1 pair.2) table).get key =
      (valueAt run key).or (table.get key) := by
  induction run generalizing table with
  | nil => rfl
  | cons pair rest ih =>
      obtain ⟨other, entry⟩ := pair
      rw [List.foldl_cons, ih sorted.tail, get_insert, valueAt]
      split
      · rename_i same
        subst same
        have later : valueAt rest key = none :=
          valueAt_eq_none_iff.mpr fun pair member => ne_of_gt (sorted.head_lt member)
        rw [later]
        rfl
      · rfl

/-- The copy of a frozen memtable holds the same entries. -/
theorem get_ofRun {run : List (Key × Entry)} (sorted : KeySorted run) (key : Key) :
    (ofRun run).get key = valueAt run key := by
  rw [ofRun, List.foldl_ext _ (fun table pair => table.insert pair.1 pair.2) new
    (fun table pair _ => ofRun_step table pair), get_foldl_insert sorted, get_new, Option.or_none]

end MemTable

/-! ## Applying operations -/

/-- The entry an operation leaves under its key. -/
def Operation.entry : Operation → Entry
  | .put _ value => .value value
  | .delete _ => .tombstone

/-- Applies a logged operation to the memtable. -/
def apply (memtable : MemTable) : Operation → MemTable
  | .put key value => memtable.put key value
  | .delete key => memtable.delete key

/-- The memtable that replaying a log rebuilds. -/
def applyAll (operations : List Operation) : MemTable := operations.foldl apply MemTable.new

theorem apply_eq_insert (memtable : MemTable) (operation : Operation) :
    apply memtable operation = memtable.insert operation.key operation.entry := by
  cases operation <;> rfl

theorem get_apply (memtable : MemTable) (operation : Operation) (key : Key) :
    (apply memtable operation).get key =
      if key = operation.key then some operation.entry else memtable.get key := by
  rw [apply_eq_insert, MemTable.get_insert]

theorem applyAll_concat (operations : List Operation) (operation : Operation) :
    applyAll (operations ++ [operation]) = apply (applyAll operations) operation := by
  rw [applyAll, List.foldl_append]
  rfl

end LsmStore
