import LsmStore.Memtable

/-!
# The block cache

Decoded data blocks are kept in a bounded cache under the table they belong to
and their offset in its file, and the least recently used blocks are dropped
first.  What matters to a reader is that a block found in the cache is one that
was put there for the same table and offset: a property of every resident
block is kept by lookups, and by insertions of blocks that have it.
-/

set_option autoImplicit false

namespace LsmStore

/-- Identity of a cached data block. -/
structure BlockKey where
  tableId : UInt64
  offset : UInt64
  deriving DecidableEq

/-- One decoded data block. -/
abbrev BlockData : Type := List (Key × Entry)

/-- The key and value bytes of a block, at least one. -/
def blockSize (block : BlockData) : Nat :=
  max (block.map fun pair => pair.1.length + pair.2.valueLen).sum 1

/-- A cache of decoded blocks, dropping the least recently used first. -/
structure BlockCache where
  map : AList fun _ : BlockKey => BlockData
  /-- The resident keys, least recently used first. -/
  order : List BlockKey
  currentBytes : Nat
  maxBytes : Nat
  hits : Nat
  misses : Nat

namespace BlockCache

/-- A cache that evicts once it holds more than the given number of bytes. -/
def new (maxBytes : Nat) : BlockCache where
  map := ∅
  order := []
  currentBytes := 0
  maxBytes := max maxBytes 1
  hits := 0
  misses := 0

/-- Makes a key the most recently used one. -/
def touch (cache : BlockCache) (key : BlockKey) : BlockCache :=
  { cache with order := cache.order.erase key ++ [key] }

/-- A previously loaded block, promoted to most recently used. -/
def get (cache : BlockCache) (key : BlockKey) : Option BlockData × BlockCache :=
  match cache.map.lookup key with
  | some block => (some block, { cache.touch key with hits := cache.hits + 1 })
  | none => (none, { cache with misses := cache.misses + 1 })

/-- The loop of `evictToFit` over the keys from the oldest on. -/
def evictLoop (cache : BlockCache) : List BlockKey → BlockCache
  | [] => { cache with order := [] }
  | oldest :: rest =>
      if cache.currentBytes ≤ cache.maxBytes then { cache with order := oldest :: rest }
      else
        match cache.map.lookup oldest with
        | some block =>
            evictLoop
              { cache with
                map := cache.map.erase oldest
                currentBytes := cache.currentBytes - blockSize block }
              rest
        | none => evictLoop cache rest

/-- Drops the least recently used blocks until the rest fits. -/
def evictToFit (cache : BlockCache) : BlockCache := evictLoop cache cache.order

/-- Inserts a block, evicting least recently used ones if needed. -/
def insert (cache : BlockCache) (key : BlockKey) (block : BlockData) : BlockCache :=
  let size := blockSize block
  let placed :=
    match cache.map.lookup key with
    | some previous =>
        { cache with currentBytes := cache.currentBytes - blockSize previous }.touch key
    | none => { cache with order := cache.order ++ [key] }
  { placed with
    map := cache.map.insert key block
    currentBytes := placed.currentBytes + size }.evictToFit

/-! ## Resident blocks -/

/-- Every resident block has a property of its key and its contents. -/
def Keeps (property : BlockKey → BlockData → Prop) (cache : BlockCache) : Prop :=
  ∀ key block, cache.map.lookup key = some block → property key block

variable {property : BlockKey → BlockData → Prop} {cache : BlockCache}

theorem keeps_new (property : BlockKey → BlockData → Prop) (maxBytes : Nat) :
    Keeps property (new maxBytes) := by
  intro key block found
  simp [new] at found

theorem Keeps.mono {weaker : BlockKey → BlockData → Prop} (keeps : Keeps property cache)
    (implies : ∀ key block, property key block → weaker key block) : Keeps weaker cache :=
  fun key block found => implies key block (keeps key block found)

/-- A block that a lookup returns is resident. -/
theorem Keeps.of_get (keeps : Keeps property cache) {key : BlockKey} {block : BlockData}
    (found : (cache.get key).1 = some block) : property key block := by
  apply keeps
  simp only [get] at found
  split at found
  · rename_i resident
    rw [resident, ← found]
  · cases found

@[simp] theorem map_get (cache : BlockCache) (key : BlockKey) :
    (cache.get key).2.map = cache.map := by
  simp only [get]
  split <;> rfl

theorem Keeps.get (keeps : Keeps property cache) (key : BlockKey) :
    Keeps property (cache.get key).2 := by
  simpa only [Keeps, map_get] using keeps

/-- Eviction only removes blocks. -/
theorem Keeps.evictLoop (order : List BlockKey) (keeps : Keeps property cache) :
    Keeps property (cache.evictLoop order) := by
  induction order generalizing cache with
  | nil => exact keeps
  | cons oldest rest ih =>
      simp only [BlockCache.evictLoop]
      split
      · exact keeps
      · split
        · refine ih fun key block found => keeps key block ?_
          rcases eq_or_ne key oldest with rfl | different
          · rw [AList.lookup_erase] at found
            cases found
          · rwa [AList.lookup_erase_ne different] at found
        · exact ih keeps

theorem Keeps.insert (keeps : Keeps property cache) {key : BlockKey} {block : BlockData}
    (fitting : property key block) : Keeps property (cache.insert key block) := by
  refine Keeps.evictLoop _ fun other resident found => ?_
  rcases eq_or_ne other key with rfl | different
  · rw [AList.lookup_insert] at found
    cases found
    exact fitting
  · rw [AList.lookup_insert_ne different] at found
    exact keeps other resident found

end BlockCache

end LsmStore
