import LsmStore.Foundation.Checked
import LsmStore.Memtable

/-!
# The size of a memtable

A memtable counts the key and value bytes of its entries as it goes.  The counter is a
machine word: replacing an entry takes the old value's length off before it adds the
new one's.  `memtable_size_exact` says that after any sequence of calls the counter is
the size of the entries that are there, that no step of the arithmetic leaves its range
as long as those entries fit into the address space, and that the entries are, in
increasing order of their keys, the last ones written.
-/

set_option autoImplicit false

namespace LsmStore

open Foundation

/-! ## Calls on a memtable -/

/-- Removes every entry and resets the size estimate. -/
def MemTable.clear (_ : MemTable) : MemTable := ⟨SortedMap.empty, 0⟩

/-- A call that changes a memtable. -/
inductive MemTableCall where
  | put (key value : Bytes)
  | delete (key : Bytes)
  | clear

namespace MemTableCall

/-- What a call does. -/
def run (table : MemTable) : MemTableCall → MemTable
  | put key value => table.put key value
  | delete key => table.delete key
  | clear => table.clear

/-- What a sequence of calls does to a new memtable. -/
def runAll (calls : List MemTableCall) : MemTable := calls.foldl run MemTable.new

/-- The entry a key has once a call is made, if it had `before`. -/
def leaves (key : Key) (before : Option Entry) : MemTableCall → Option Entry
  | put other value => if key = other then some (.value value) else before
  | delete other => if key = other then some .tombstone else before
  | clear => none

/-- The last entry that a sequence of calls wrote under a key and did not clear. -/
def lastWritten (calls : List MemTableCall) (key : Key) : Option Entry :=
  calls.foldl (leaves key) none

end MemTableCall

/-! ## The counter as a machine word -/

namespace MemTable

/-- `insert` with every step of its arithmetic checked. -/
def insertChecked (table : MemTable) (key : Key) (entry : Entry) : Except Failure MemTable := do
  let added ← addWithin .panic u64Max key.length entry.valueLen
  let approximateSize ←
    match table.entries.get? key with
    | some previous => do
        let rest ← subWithin .panic table.approximateSize previous.valueLen
        addWithin .panic u64Max rest entry.valueLen
    | none => addWithin .panic u64Max table.approximateSize added
  return ⟨table.entries.insert key entry, approximateSize⟩

end MemTable

namespace MemTableCall

/-- What a call does with checked arithmetic. -/
def runChecked (table : MemTable) : MemTableCall → Except Failure MemTable
  | put key value => table.insertChecked key (.value value)
  | delete key => table.insertChecked key .tombstone
  | clear => .ok table.clear

/-- What a sequence of calls does to a new memtable, with checked arithmetic. -/
def runAllChecked (calls : List MemTableCall) : Except Failure MemTable :=
  calls.foldlM runChecked MemTable.new

end MemTableCall

/-! ## Counting -/

/-- The key and value bytes of some entries. -/
def entryBytes (run : List (Key × Entry)) : Nat :=
  (run.map fun pair => pair.1.length + pair.2.valueLen).sum

/-- The counter is the size of the entries. -/
def MemTable.Counted (table : MemTable) : Prop := table.approximateSize = entryBytes table.iter

namespace MemTable

variable {table : MemTable}

theorem counted_new : new.Counted := rfl

/-- What the entries weigh once a key is written. -/
theorem entryBytes_insert (table : MemTable) (key : Key) (entry : Entry) :
    entryBytes (table.insert key entry).iter +
        ((table.get key).elim 0 fun previous => key.length + previous.valueLen) =
      entryBytes table.iter + (key.length + entry.valueLen) :=
  table.entries.sorted.sum_insertAt (fun pair => pair.1.length + pair.2.valueLen) key entry

/-- An entry that is there counts. -/
theorem le_entryBytes {key : Key} {entry : Entry} (found : table.get key = some entry) :
    key.length + entry.valueLen ≤ entryBytes table.iter := by
  have member : (key, entry) ∈ table.iter := mem_of_valueAt found
  exact List.le_sum_of_mem (List.mem_map_of_mem member)

theorem Counted.insert (counted : table.Counted) (key : Key) (entry : Entry) :
    (table.insert key entry).Counted := by
  have weight := entryBytes_insert table key entry
  have isSize : table.approximateSize = entryBytes table.iter := counted
  unfold Counted
  cases found : table.get key with
  | none =>
      have grown : (table.insert key entry).approximateSize =
          table.approximateSize + (key.length + entry.valueLen) := by
        rw [MemTable.insert, show table.entries.get? key = none from found]
      rw [found, Option.elim_none] at weight
      omega
  | some previous =>
      have changed : (table.insert key entry).approximateSize =
          table.approximateSize - previous.valueLen + entry.valueLen := by
        rw [MemTable.insert, show table.entries.get? key = some previous from found]
      have counts := le_entryBytes found
      rw [found, Option.elim_some] at weight
      omega

/-- The checked arithmetic computes the counter when the entries fit. -/
theorem Counted.insertChecked (counted : table.Counted) {key : Key} {entry : Entry}
    (fits : entryBytes (table.insert key entry).iter ≤ u64Max) :
    table.insertChecked key entry = .ok (table.insert key entry) := by
  have weight := entryBytes_insert table key entry
  have isSize : table.approximateSize = entryBytes table.iter := counted
  have written : key.length + entry.valueLen ≤ entryBytes (table.insert key entry).iter :=
    le_entryBytes (by rw [get_insert, if_pos rfl])
  unfold MemTable.insertChecked MemTable.insert
  rw [addWithin_ok (by omega), ok_bind]
  cases found : table.get key with
  | none =>
      rw [found, Option.elim_none] at weight
      rw [show table.entries.get? key = none from found]
      dsimp only
      rw [addWithin_ok (by omega)]
      rfl
  | some previous =>
      have counts := le_entryBytes found
      rw [found, Option.elim_some] at weight
      rw [show table.entries.get? key = some previous from found]
      dsimp only
      rw [subWithin_ok (by omega), ok_bind, addWithin_ok (by omega)]
      rfl

end MemTable

/-! ## Whole runs -/

namespace MemTableCall

theorem runAll_concat (calls : List MemTableCall) (call : MemTableCall) :
    runAll (calls ++ [call]) = run (runAll calls) call := by
  rw [runAll, List.foldl_append]
  rfl

/-- One call keeps the counter exact. -/
theorem counted_run {table : MemTable} (counted : table.Counted) (call : MemTableCall) :
    (run table call).Counted := by
  cases call with
  | put key value => exact counted.insert key (.value value)
  | delete key => exact counted.insert key .tombstone
  | clear => exact MemTable.counted_new

theorem counted_runAll (calls : List MemTableCall) : (runAll calls).Counted := by
  induction calls using List.reverseRecOn with
  | nil => exact MemTable.counted_new
  | append_singleton earlier call ih =>
      rw [runAll_concat]
      exact counted_run ih call

/-- One call leaves under a key what it writes there. -/
theorem get_run (table : MemTable) (call : MemTableCall) (key : Key) :
    (run table call).get key = leaves key (table.get key) call := by
  cases call with
  | put other value => exact MemTable.get_insert table other key (.value value)
  | delete other => exact MemTable.get_insert table other key .tombstone
  | clear => rfl

theorem get_runAll (calls : List MemTableCall) (key : Key) :
    (runAll calls).get key = lastWritten calls key := by
  induction calls using List.reverseRecOn with
  | nil => rfl
  | append_singleton earlier call ih =>
      rw [runAll_concat, get_run, ih, lastWritten, lastWritten, List.foldl_append]
      rfl

theorem runChecked_eq {table : MemTable} (counted : table.Counted) {call : MemTableCall}
    (fits : entryBytes (run table call).iter ≤ u64Max) :
    runChecked table call = .ok (run table call) := by
  cases call with
  | put key value => exact counted.insertChecked fits
  | delete key => exact counted.insertChecked fits
  | clear => rfl

theorem runAllChecked_eq {calls : List MemTableCall}
    (fits : ∀ front, front <+: calls → entryBytes (runAll front).iter ≤ u64Max) :
    runAllChecked calls = .ok (runAll calls) := by
  induction calls using List.reverseRecOn with
  | nil => rfl
  | append_singleton earlier call ih =>
      have before := ih fun front isFront => fits front (isFront.trans (List.prefix_append _ _))
      have last := fits _ (List.prefix_refl _)
      rw [runAll_concat] at last ⊢
      rw [runAllChecked, List.foldlM_append, ← runAllChecked, before]
      change (runChecked (runAll earlier) call >>= pure) = _
      rw [runChecked_eq (counted_runAll earlier) last]
      rfl

end MemTableCall

open MemTableCall in
/-- **The size of a memtable is exact.**  After any sequence of calls during which the
entries stay below `2 ^ 64` bytes, no step of the arithmetic has left its range; the
counter is the sum of the key and value lengths of the entries, a tombstone having no
value bytes; and the iteration yields in strictly increasing order exactly the last
entry written under each key. -/
theorem memtable_size_exact (calls : List MemTableCall)
    (fits : ∀ front, front <+: calls → entryBytes (runAll front).iter < 2 ^ 64) :
    runAllChecked calls = .ok (runAll calls) ∧
      (runAll calls).approximateSize =
        ((runAll calls).iter.map fun pair => pair.1.length + pair.2.valueLen).sum ∧
      (∀ key previous, (runAll calls).get key = some previous →
        previous.valueLen ≤ (runAll calls).approximateSize) ∧
      (runAll calls).iter.Pairwise (fun first second => first.1 < second.1) ∧
      ∀ key entry, (key, entry) ∈ (runAll calls).iter ↔ lastWritten calls key = some entry := by
  have counted := counted_runAll calls
  refine ⟨?_, counted, ?_, (runAll calls).iter_sorted, ?_⟩
  · refine runAllChecked_eq fun front isFront => ?_
    have small := fits front isFront
    unfold u64Max
    omega
  · intro key previous found
    have counts := MemTable.le_entryBytes found
    have isSize : (runAll calls).approximateSize = entryBytes (runAll calls).iter := counted
    omega
  · intro key entry
    rw [← (runAll calls).iter_sorted.valueAt_eq_some_iff, MemTable.valueAt_iter, get_runAll]

open MemTableCall in
/-- A key is overwritten, deleted and written again, next to one that is deleted. -/
theorem memtable_size_exact_overwritten :
    runAllChecked [.put [97] [1, 2, 3], .put [97] [4], .delete [97], .delete [98], .put [97] [5, 6]] =
        .ok (runAll [.put [97] [1, 2, 3], .put [97] [4], .delete [97], .delete [98],
          .put [97] [5, 6]]) ∧
      (runAll [.put [97] [1, 2, 3], .put [97] [4], .delete [97], .delete [98],
        .put [97] [5, 6]]).approximateSize = 4 := by
  obtain ⟨inRange, isSize, _⟩ := memtable_size_exact [.put [97] [1, 2, 3], .put [97] [4],
    .delete [97], .delete [98], .put [97] [5, 6]] (by
      intro front isFront
      have all : ∀ front ∈ List.inits [MemTableCall.put [97] [1, 2, 3], .put [97] [4],
          .delete [97], .delete [98], .put [97] [5, 6]],
          entryBytes (runAll front).iter < 2 ^ 64 := by decide
      exact all front ((List.mem_inits _ _).mpr isFront))
  exact ⟨inRange, isSize.trans (by decide)⟩

end LsmStore
