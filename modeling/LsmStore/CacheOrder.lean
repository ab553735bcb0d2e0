import LsmStore.Cache
import LsmStore.Foundation.Checked
import LsmStore.Foundation.Lru

/-!
# The block cache is a bounded LRU cache

The cache keeps a map of blocks, a queue of their keys and a count of their bytes.  The
three move together: the cache follows the abstract least-recently-used list of
`Foundation.Lru` through every call (`Follows`), so the queue has the resident keys in
the order of their last uses, the count is that of the resident blocks, and an insertion
drops the shortest front of the queue that restores the bound.

The counters are machine words.  No subtraction leaves its range; an addition does so
only when the resident bytes, or the number of lookups, would reach `2 ^ 64`
(`cache_is_bounded_lru`).  A cache without a practical bound reaches the first limit by
holding one shared block under many keys (`cache_counter_overflows`).
-/

set_option autoImplicit false

namespace LsmStore

open Foundation

/-! ## Calls on a cache -/

/-- A call on a cache. -/
inductive CacheCall where
  | get (key : BlockKey)
  | insert (key : BlockKey) (block : BlockData)

namespace BlockCache

/-- `get` with its counters checked. -/
def getChecked (cache : BlockCache) (key : BlockKey) :
    Except Failure (Option BlockData × BlockCache) :=
  match cache.map.lookup key with
  | some block => do
      let hits ← addWithin .panic u64Max cache.hits 1
      return (some block, { cache.touch key with hits := hits })
  | none => do
      let misses ← addWithin .panic u64Max cache.misses 1
      return (none, { cache with misses := misses })

/-- `insert` with its arithmetic checked; the eviction subtracts with saturation. -/
def insertChecked (cache : BlockCache) (key : BlockKey) (block : BlockData) :
    Except Failure BlockCache := do
  let size := blockSize block
  let placed : BlockCache ←
    match cache.map.lookup key with
    | some previous => do
        let rest ← subWithin .panic cache.currentBytes (blockSize previous)
        pure ({ cache with currentBytes := rest }.touch key)
    | none => pure { cache with order := cache.order ++ [key] }
  let currentBytes ← addWithin .panic u64Max placed.currentBytes size
  return { placed with
    map := cache.map.insert key block
    currentBytes := currentBytes }.evictToFit

end BlockCache

namespace CacheCall

/-- The cache after a call. -/
def run (cache : BlockCache) : CacheCall → BlockCache
  | get key => (cache.get key).2
  | insert key block => cache.insert key block

/-- The cache after a call, with checked arithmetic. -/
def runChecked (cache : BlockCache) : CacheCall → Except Failure BlockCache
  | get key => (cache.getChecked key).map (·.2)
  | insert key block => cache.insertChecked key block

/-- The cache after a sequence of calls. -/
def runAll (calls : List CacheCall) (cache : BlockCache) : BlockCache := calls.foldl run cache

/-- The cache after a sequence of calls, with checked arithmetic. -/
def runAllChecked (calls : List CacheCall) (cache : BlockCache) : Except Failure BlockCache :=
  calls.foldlM runChecked cache

/-- The key that a call uses: an insertion uses its key, a lookup only one it finds. -/
def uses (cache : BlockCache) : CacheCall → List BlockKey
  | get key => if key ∈ cache.map then [key] else []
  | insert key _ => [key]

/-- The keys that a sequence of calls uses, in turn. -/
def usedBy : List CacheCall → BlockCache → List BlockKey
  | [], _ => []
  | call :: rest, cache => call.uses cache ++ usedBy rest (call.run cache)

/-- The counters of a call stay below `2 ^ 64`: the hits, the misses, or the bytes of the
resident blocks with the new block in place of the old one. -/
def Fits (cache : BlockCache) : CacheCall → Prop
  | get key => (if key ∈ cache.map then cache.hits else cache.misses) + 1 ≤ u64Max
  | insert key block =>
      cache.currentBytes - (cache.map.lookup key).elim 0 blockSize + blockSize block ≤ u64Max

instance (cache : BlockCache) (call : CacheCall) : Decidable (call.Fits cache) := by
  cases call <;> exact Nat.decLe _ _

/-- Every call fits in the state it is made in. -/
def AllFit : List CacheCall → BlockCache → Prop
  | [], _ => True
  | call :: rest, cache => call.Fits cache ∧ AllFit rest (call.run cache)

end CacheCall

namespace BlockCache

/-! ## Following the abstract list -/

/-- The cache holds the items of an abstract list, in its order. -/
structure Follows (cache : BlockCache) (items : Lru.Items BlockKey BlockData) : Prop where
  distinct : items.NodupKeys
  order : cache.order = items.keys
  map : ∀ key, cache.map.lookup key = items.dlookup key
  bytes : cache.currentBytes = Lru.total blockSize items

variable {cache : BlockCache} {items : Lru.Items BlockKey BlockData}

theorem follows_new (maxBytes : Nat) : (new maxBytes).Follows [] :=
  ⟨List.nodupKeys_nil, rfl, fun _ => rfl, rfl⟩

/-- The lookups of a list with an item at its end, in place of an old one. -/
theorem dlookup_replace (distinct : items.NodupKeys) (key other : BlockKey) (block : BlockData) :
    List.dlookup other (items.kerase key ++ [⟨key, block⟩]) =
      if other = key then some block else items.dlookup other := by
  rw [List.dlookup_append]
  split
  · rename_i same
    subst same
    rw [List.dlookup_kerase _ distinct, Option.none_or, List.dlookup_cons_eq]
  · rename_i different
    rw [List.dlookup_kerase_ne different, List.dlookup_cons_ne _ _ different, List.dlookup_nil,
      Option.or_none]

theorem Follows.get (follows : cache.Follows items) (key : BlockKey) :
    (cache.get key).2.Follows (Lru.promote key items) := by
  have found := follows.map key
  cases isFound : items.dlookup key with
  | none =>
      rw [isFound] at found
      rw [Lru.promote, isFound, BlockCache.get, found]
      exact ⟨follows.distinct, follows.order, follows.map, follows.bytes⟩
  | some block =>
      rw [isFound] at found
      rw [BlockCache.get, found]
      refine ⟨Lru.nodupKeys_promote follows.distinct key, ?_, ?_, ?_⟩
      · change cache.order.erase key ++ [key] = _
        rw [Lru.promote, isFound, Lru.keys_replace, follows.order]
      · intro other
        rw [Lru.promote, isFound, dlookup_replace follows.distinct]
        change cache.map.lookup other = _
        split
        · rename_i same
          rw [same, found]
        · exact follows.map other
      · exact follows.bytes.trans (Lru.total_promote key items).symm

/-- The eviction trims the abstract list. -/
theorem evictLoop_follows (distinct : items.NodupKeys)
    (map : ∀ key, cache.map.lookup key = items.dlookup key)
    (bytes : cache.currentBytes = Lru.total blockSize items) :
    (cache.evictLoop items.keys).Follows (Lru.trim blockSize cache.maxBytes items) := by
  induction items generalizing cache with
  | nil => exact ⟨distinct, rfl, map, bytes⟩
  | cons item rest ih =>
      obtain ⟨oldest, block⟩ := item
      rw [List.keys_cons, evictLoop, Lru.trim, ← bytes]
      split
      · exact ⟨distinct, rfl, map, bytes⟩
      · obtain ⟨absent, others⟩ := List.nodupKeys_cons.mp distinct
        have isBlock : cache.map.lookup oldest = some block := by
          rw [map, List.dlookup_cons_eq]
        rw [isBlock]
        refine ih others ?_ ?_
        · intro key
          dsimp only
          by_cases same : key = oldest
          · subst same
            rw [AList.lookup_erase, List.dlookup_eq_none.mpr absent]
          · rw [AList.lookup_erase_ne same, map, List.dlookup_cons_ne _ _ same]
        · dsimp only
          rw [bytes, Lru.total_cons, Nat.add_sub_cancel_left]

/-- The state of an insertion before its eviction. -/
def placed (cache : BlockCache) (key : BlockKey) (block : BlockData) : BlockCache :=
  { cache with
    map := cache.map.insert key block
    order := cache.order.erase key ++ [key]
    currentBytes :=
      cache.currentBytes - (cache.map.lookup key).elim 0 blockSize + blockSize block }

theorem Follows.placed (follows : cache.Follows items) (key : BlockKey) (block : BlockData) :
    (cache.placed key block).Follows (items.kerase key ++ [⟨key, block⟩]) := by
  refine ⟨Lru.nodupKeys_replace follows.distinct key block, ?_, ?_, ?_⟩
  · rw [Lru.keys_replace, ← follows.order]
    rfl
  · intro other
    rw [dlookup_replace follows.distinct, BlockCache.placed]
    split
    · rename_i same
      rw [same, AList.lookup_insert]
    · rename_i different
      rw [AList.lookup_insert_ne different]
      exact follows.map other
  · have isLast : Lru.total blockSize ([⟨key, block⟩] : Lru.Items BlockKey BlockData) =
        blockSize block := by
      simp [Lru.total]
    rw [Lru.total_append, isLast, BlockCache.placed, follows.bytes, follows.map key]
    cases found : items.dlookup key with
    | none =>
        rw [List.kerase_of_notMem_keys (List.dlookup_eq_none.mp found)]
        rfl
    | some previous =>
        have parts : blockSize previous + Lru.total blockSize (items.kerase key) =
            Lru.total blockSize items := Lru.total_kerase found
        simp only [Option.elim_some]
        omega

/-- A key that is not resident is not in the queue. -/
theorem Follows.notMem_order (follows : cache.Follows items) {key : BlockKey}
    (absent : cache.map.lookup key = none) : key ∉ cache.order := by
  rw [follows.map key] at absent
  rw [follows.order]
  exact List.dlookup_eq_none.mp absent

theorem Follows.insert_eq (follows : cache.Follows items) (key : BlockKey) (block : BlockData) :
    cache.insert key block = (cache.placed key block).evictToFit := by
  rw [BlockCache.insert, BlockCache.placed]
  cases found : cache.map.lookup key with
  | none =>
      rw [List.erase_of_not_mem (follows.notMem_order found)]
      rfl
  | some previous => rfl

theorem Follows.insert (follows : cache.Follows items) (key : BlockKey) (block : BlockData) :
    (cache.insert key block).Follows (Lru.store blockSize cache.maxBytes key block items) := by
  have placed := follows.placed key block
  rw [follows.insert_eq, evictToFit, placed.order]
  exact evictLoop_follows placed.distinct placed.map placed.bytes

/-! ## The checked calls -/

theorem runChecked_get (cache : BlockCache) (key : BlockKey) :
    (CacheCall.get key).runChecked cache =
      if (CacheCall.get key).Fits cache then .ok ((CacheCall.get key).run cache)
      else .error .panic := by
  have unchecked : (CacheCall.get key).runChecked cache =
      if (if key ∈ cache.map then cache.hits else cache.misses) + 1 ≤ u64Max then
        .ok (cache.get key).2
      else .error .panic := by
    simp only [CacheCall.runChecked, getChecked, BlockCache.get]
    cases found : cache.map.lookup key with
    | none =>
        rw [if_neg (AList.lookup_eq_none.mp found)]
        dsimp only
        rw [addWithin_bind]
        split <;> rfl
    | some block =>
        rw [if_pos (AList.lookup_isSome.mp (by rw [found]; rfl))]
        dsimp only
        rw [addWithin_bind]
        split <;> rfl
  exact unchecked

/-- The bytes of a block that an insertion replaces are among the counted ones. -/
theorem Follows.released_le (follows : cache.Follows items) (key : BlockKey) :
    (cache.map.lookup key).elim 0 blockSize ≤ cache.currentBytes := by
  rw [follows.map key, follows.bytes]
  cases found : items.dlookup key with
  | none => exact Nat.zero_le _
  | some previous =>
      change blockSize previous ≤ _
      exact Lru.le_total found

theorem Follows.runChecked_insert (follows : cache.Follows items) (key : BlockKey)
    (block : BlockData) :
    (CacheCall.insert key block).runChecked cache =
      if (CacheCall.insert key block).Fits cache then
        .ok ((CacheCall.insert key block).run cache)
      else .error .panic := by
  have released := follows.released_le key
  have unchecked : cache.insertChecked key block =
      if cache.currentBytes - (cache.map.lookup key).elim 0 blockSize + blockSize block ≤ u64Max
      then .ok (cache.insert key block)
      else .error .panic := by
    rw [insertChecked, BlockCache.insert]
    cases found : cache.map.lookup key with
    | none =>
        simp only [pure_bind, addWithin_bind, Option.elim_none, Nat.sub_zero]
        rfl
    | some previous =>
        rw [found] at released
        have taken : subWithin Failure.panic cache.currentBytes (blockSize previous) =
            .ok (cache.currentBytes - blockSize previous) := subWithin_ok released
        simp only [taken, ok_bind, pure_bind, addWithin_bind, Option.elim_some]
        rfl
  exact unchecked

end BlockCache

namespace CacheCall

open BlockCache

variable {cache : BlockCache} {items : Lru.Items BlockKey BlockData}

theorem runChecked_eq (follows : cache.Follows items) (call : CacheCall) :
    call.runChecked cache =
      if call.Fits cache then .ok (call.run cache) else .error .panic := by
  cases call with
  | get key => exact runChecked_get cache key
  | insert key block => exact follows.runChecked_insert key block

/-- What a call does to the abstract list. -/
def model (bound : Nat) (items : Lru.Items BlockKey BlockData) :
    CacheCall → Lru.Items BlockKey BlockData
  | get key => Lru.promote key items
  | insert key block => Lru.store blockSize bound key block items

theorem run_follows (follows : cache.Follows items) (call : CacheCall) :
    (call.run cache).Follows (call.model cache.maxBytes items) := by
  cases call with
  | get key => exact follows.get key
  | insert key block => exact follows.insert key block

end CacheCall

namespace BlockCache

/-! ## Whole runs -/

theorem maxBytes_evictLoop (cache : BlockCache) (order : List BlockKey) :
    (cache.evictLoop order).maxBytes = cache.maxBytes := by
  induction order generalizing cache with
  | nil => rfl
  | cons oldest rest ih =>
      rw [evictLoop]
      split
      · rfl
      · split
        · rw [ih]
        · rw [ih]

theorem maxBytes_run (cache : BlockCache) (call : CacheCall) :
    (call.run cache).maxBytes = cache.maxBytes := by
  cases call with
  | get key =>
      rw [CacheCall.run, BlockCache.get]
      split <;> rfl
  | insert key block =>
      rw [CacheCall.run, BlockCache.insert, evictToFit, maxBytes_evictLoop]
      split <;> rfl

/-- A cache with a bound, after the given uses. -/
structure Reached (bound : Nat) (uses : List BlockKey) (cache : BlockCache)
    (items : Lru.Items BlockKey BlockData) : Prop where
  follows : cache.Follows items
  maxBytes : cache.maxBytes = bound
  bounded : Lru.total blockSize items ≤ bound
  ordered : items.keys.Sublist uses.dedup

variable {bound : Nat} {used : List BlockKey} {cache : BlockCache}
  {items : Lru.Items BlockKey BlockData}

theorem reached_new (maxBytes : Nat) : Reached (max maxBytes 1) [] (new maxBytes) [] :=
  ⟨follows_new maxBytes, rfl, Nat.zero_le _, List.Sublist.refl _⟩

theorem Follows.mem_map_iff (follows : cache.Follows items) (key : BlockKey) :
    key ∈ cache.map ↔ key ∈ items.keys := by
  rw [← AList.lookup_isSome, follows.map key, List.dlookup_isSome]

/-- One call keeps the cache within its bound and in the order of the last uses. -/
theorem Reached.run (reached : Reached bound used cache items) (call : CacheCall) :
    Reached bound (used ++ call.uses cache) (call.run cache) (call.model bound items) := by
  have follows := CacheCall.run_follows reached.follows call
  rw [reached.maxBytes] at follows
  refine ⟨follows, (maxBytes_run cache call).trans reached.maxBytes, ?_, ?_⟩
  · cases call with
    | get key => exact (Lru.total_promote key items).trans_le reached.bounded
    | insert key block => exact Lru.total_trim_le bound _
  · cases call with
    | get key =>
        cases found : items.dlookup key with
        | none =>
            have absent : key ∉ cache.map := by
              rw [reached.follows.mem_map_iff]
              exact List.dlookup_eq_none.mp found
            rw [CacheCall.uses, if_neg absent, List.append_nil, CacheCall.model, Lru.promote, found]
            exact reached.ordered
        | some block =>
            have resident : key ∈ cache.map := by
              rw [← AList.lookup_isSome, reached.follows.map, found]
              rfl
            rw [CacheCall.uses, if_pos resident]
            exact Lru.keys_promote_sublist reached.ordered found
    | insert key block => exact Lru.keys_store_sublist reached.ordered bound key block

theorem Reached.runAll (reached : Reached bound used cache items) (calls : List CacheCall) :
    ∃ left, Reached bound (used ++ CacheCall.usedBy calls cache) (CacheCall.runAll calls cache)
      left := by
  induction calls generalizing used cache items with
  | nil =>
      refine ⟨items, ?_⟩
      rw [CacheCall.usedBy, List.append_nil]
      exact reached
  | cons call rest ih =>
      rw [CacheCall.usedBy, ← List.append_assoc]
      exact ih (reached.run call)

/-- The checked run returns, with the unbounded run's result, exactly if every call fits. -/
theorem Follows.runAllChecked_iff (follows : cache.Follows items) (calls : List CacheCall) :
    CacheCall.runAllChecked calls cache = .ok (CacheCall.runAll calls cache) ↔
      CacheCall.AllFit calls cache := by
  induction calls generalizing cache items with
  | nil => exact ⟨fun _ => trivial, fun _ => rfl⟩
  | cons call rest ih =>
      have unrolled : CacheCall.runAllChecked (call :: rest) cache =
          call.runChecked cache >>= CacheCall.runAllChecked rest := List.foldlM_cons
      rw [unrolled, CacheCall.runChecked_eq follows, CacheCall.AllFit]
      by_cases fits : call.Fits cache
      · rw [if_pos fits]
        exact (ih (CacheCall.run_follows follows call)).trans
          ⟨fun others => ⟨fits, others⟩, fun both => both.2⟩
      · rw [if_neg fits]
        exact ⟨fun impossible => (nomatch impossible), fun both => absurd both.1 fits⟩

/-! ## What a byte-bounded LRU cache is -/

/-- A byte-bounded cache in the order of the last uses. -/
structure BoundedLru (bound : Nat) (used : List BlockKey) (cache : BlockCache) : Prop where
  distinct : cache.order.Nodup
  resident : ∀ key, key ∈ cache.order ↔ key ∈ cache.map
  recency : (used.dedup.filter fun key => decide (key ∈ cache.map)) = cache.order
  bytes : cache.currentBytes = (cache.map.entries.map fun item => blockSize item.2).sum
  released : ∀ key block, cache.map.lookup key = some block → blockSize block ≤ cache.currentBytes
  bounded : cache.currentBytes ≤ bound

/-- The bytes of the blocks that a map has for some keys. -/
def bytesOf (map : AList fun _ : BlockKey => BlockData) (keys : List BlockKey) : Nat :=
  (keys.map fun key => (map.lookup key).elim 0 blockSize).sum

/-- An insertion keeps, of the queue with the key at its end, what is left without the
shortest front that has to go; a block within the bound is resident afterwards. -/
structure EvictsShortest (bound : Nat) (cache : BlockCache) (key : BlockKey) (block : BlockData)
    (after : BlockCache) : Prop where
  front : ∃ count,
    after.order = (cache.order.erase key ++ [key]).drop count ∧
      bytesOf (cache.map.insert key block) after.order ≤ bound ∧
      ∀ fewer < count,
        bound < bytesOf (cache.map.insert key block)
          ((cache.order.erase key ++ [key]).drop fewer)
  kept : ∀ other, after.map.lookup other =
    if other ∈ after.order then (cache.map.insert key block).lookup other else none
  resident : blockSize block ≤ bound → after.map.lookup key = some block

theorem Reached.boundedLru (reached : Reached bound used cache items) :
    BoundedLru bound used cache := by
  have follows := reached.follows
  have same : ∀ key, key ∈ cache.order ↔ key ∈ cache.map := by
    intro key
    rw [follows.order, follows.mem_map_iff]
  refine ⟨?_, same, ?_, ?_, ?_, ?_⟩
  · rw [follows.order]
    exact follows.distinct
  · simp only [follows.order, follows.mem_map_iff]
    exact Lru.keys_eq_filter reached.ordered
  · have entries : cache.map.entries.Perm items :=
      List.lookup_ext cache.map.nodupKeys follows.distinct fun key block => by
        rw [← follows.map key]
        rfl
    rw [follows.bytes, Lru.total]
    exact ((entries.map _).sum_eq).symm
  · intro key block found
    have released := follows.released_le key
    rw [found] at released
    exact released
  · rw [follows.bytes]
    exact reached.bounded

/-- The items of a list, weighed by the lookups of a map that agrees with the list. -/
theorem Follows.bytesOf_keys (follows : cache.Follows items)
    {part : Lru.Items BlockKey BlockData} (isPart : part.Sublist items) :
    bytesOf cache.map part.keys = Lru.total blockSize part := by
  have sizes : part.keys.map (fun key => (cache.map.lookup key).elim 0 blockSize) =
      part.map fun item => blockSize item.2 := by
    rw [List.keys, List.map_map]
    refine List.map_congr_left fun item member => ?_
    have found : items.dlookup item.1 = some item.2 :=
      List.mem_dlookup follows.distinct (isPart.subset member)
    rw [Function.comp_apply, follows.map, found]
    rfl
  rw [bytesOf, sizes, Lru.total]

theorem Reached.evictsShortest (reached : Reached bound used cache items) (key : BlockKey)
    (block : BlockData) : EvictsShortest bound cache key block (cache.insert key block) := by
  have placed := reached.follows.placed key block
  have inserted := reached.follows.insert key block
  rw [reached.maxBytes, Lru.store] at inserted
  have trimmed : (Lru.trim blockSize bound (items.kerase key ++ [⟨key, block⟩])).Sublist _ :=
    Lru.trim_sublist bound _
  refine ⟨?_, ?_, ?_⟩
  · obtain ⟨count, isDrop, least⟩ :
        ∃ count, Lru.trim blockSize bound (items.kerase key ++ [⟨key, block⟩]) = _ ∧ _ :=
      Lru.trim_eq_drop bound _
    refine ⟨count, ?_, ?_, ?_⟩
    · rw [inserted.order, isDrop, List.keys, List.map_drop]
      exact congrArg _ placed.order.symm
    · rw [inserted.order]
      exact (placed.bytesOf_keys trimmed).trans_le (Lru.total_trim_le bound _)
    · intro fewer less
      have heavy := least fewer less
      rw [← placed.bytesOf_keys (List.drop_sublist fewer _), List.keys, List.map_drop] at heavy
      rw [show cache.order.erase key ++ [key] = _ from placed.order]
      exact heavy
  · intro other
    rw [inserted.map, inserted.order]
    split
    · rename_i isKept
      rw [Lru.dlookup_of_sublist trimmed placed.distinct isKept]
      exact (placed.map other).symm
    · rename_i isGone
      exact List.dlookup_eq_none.mpr isGone
  · intro small
    rw [inserted.map]
    exact List.mem_dlookup inserted.distinct (Lru.mem_trim_concat _ small)

/-- **The block cache is a byte-bounded LRU cache, as long as its counters fit.**  The
calls return exactly if none of them takes a counter to `2 ^ 64`; then the queue has the
resident keys in the order of their last uses, the byte count is that of the resident
blocks and within the bound, and a further insertion that fits evicts the shortest front
that restores the bound. -/
theorem cache_is_bounded_lru (maxBytes : Nat) (calls : List CacheCall) :
    (CacheCall.runAllChecked calls (new maxBytes) =
        .ok (CacheCall.runAll calls (new maxBytes)) ∧
      BoundedLru (max maxBytes 1) (CacheCall.usedBy calls (new maxBytes))
        (CacheCall.runAll calls (new maxBytes)) ∧
      ∀ key block, (CacheCall.insert key block).Fits (CacheCall.runAll calls (new maxBytes)) →
        ∃ after, (CacheCall.runAll calls (new maxBytes)).insertChecked key block = .ok after ∧
          EvictsShortest (max maxBytes 1) (CacheCall.runAll calls (new maxBytes)) key block
            after) ↔
      CacheCall.AllFit calls (new maxBytes) := by
  constructor
  · intro holds
    exact ((follows_new maxBytes).runAllChecked_iff calls).mp holds.1
  · intro fits
    obtain ⟨items, reached⟩ := (reached_new maxBytes).runAll calls
    rw [List.nil_append] at reached
    refine ⟨((follows_new maxBytes).runAllChecked_iff calls).mpr fits, reached.boundedLru, ?_⟩
    intro key block fitting
    refine ⟨_, ?_, reached.evictsShortest key block⟩
    exact (reached.follows.runChecked_insert key block).trans (if_pos fitting)

/-! ## One block under many keys -/

/-- A block with one value of zeros under the empty key. -/
def blockOf (length : Nat) : BlockData := [([], .value (List.replicate length 0))]

theorem blockSize_blockOf {length : Nat} (positive : 0 < length) :
    blockSize (blockOf length) = length := by
  simp only [blockSize, blockOf, List.map_cons, List.map_nil, List.sum_cons, List.sum_nil,
    Entry.valueLen, List.length_nil, List.length_replicate]
  omega

/-- One block inserted at each of the first offsets of a table. -/
def insertions (block : BlockData) (count : Nat) : List CacheCall :=
  (List.range count).map fun offset => .insert ⟨0, UInt64.ofNat offset⟩ block

/-- The abstract list after these insertions into a cache with room for them. -/
def copies (block : BlockData) (count : Nat) : Lru.Items BlockKey BlockData :=
  (List.range count).map fun offset => ⟨⟨0, UInt64.ofNat offset⟩, block⟩

theorem total_copies (block : BlockData) (count : Nat) :
    Lru.total blockSize (copies block count) = count * blockSize block := by
  simp [Lru.total, copies, Function.comp_def]

theorem fresh_copies (block : BlockData) {count : Nat} (small : count < 2 ^ 64) :
    (⟨0, UInt64.ofNat count⟩ : BlockKey) ∉ (copies block count).keys := by
  intro member
  obtain ⟨other, isOffset⟩ := List.exists_of_mem_keys member
  obtain ⟨offset, below, same⟩ := List.mem_map.mp isOffset
  have before : offset < count := List.mem_range.mp below
  have words : UInt64.ofNat offset = UInt64.ofNat count := by
    have keys := congrArg (fun item => item.1.offset) same
    exact keys
  have numbers := congrArg UInt64.toNat words
  rw [UInt64.toNat_ofNat_of_lt' (by simpa using before.trans small),
    UInt64.toNat_ofNat_of_lt' (by simpa using small)] at numbers
  omega

theorem insertions_succ (block : BlockData) (count : Nat) :
    insertions block (count + 1) =
      insertions block count ++ [.insert ⟨0, UInt64.ofNat count⟩ block] := by
  simp only [insertions, List.range_succ, List.map_append, List.map_cons, List.map_nil]

theorem copies_succ (block : BlockData) (count : Nat) :
    copies block (count + 1) = copies block count ++ [⟨⟨0, UInt64.ofNat count⟩, block⟩] := by
  simp only [copies, List.range_succ, List.map_append, List.map_cons, List.map_nil]

/-- The next copy fits if the counter has room for it. -/
theorem Follows.fits_copy {block : BlockData} {count : Nat} (small : count < 2 ^ 64)
    (follows : cache.Follows (copies block count)) :
    (CacheCall.insert ⟨0, UInt64.ofNat count⟩ block).Fits cache ↔
      (count + 1) * blockSize block ≤ u64Max := by
  have absent : cache.map.lookup ⟨0, UInt64.ofNat count⟩ = none := by
    rw [follows.map]
    exact List.dlookup_eq_none.mpr (fresh_copies block small)
  rw [CacheCall.Fits, absent, follows.bytes, total_copies, Option.elim_none, Nat.sub_zero,
    Nat.succ_mul]

/-- Up to the bound every copy stays resident, and up to `2 ^ 64` bytes the calls return. -/
theorem insertions_return (block : BlockData) (maxBytes : Nat) {count : Nat}
    (small : count < 2 ^ 64) (room : count * blockSize block ≤ max maxBytes 1)
    (counted : count * blockSize block ≤ u64Max) :
    ∃ cache, CacheCall.runAllChecked (insertions block count) (new maxBytes) = .ok cache ∧
      cache.maxBytes = max maxBytes 1 ∧ cache.Follows (copies block count) := by
  induction count with
  | zero => exact ⟨new maxBytes, rfl, rfl, follows_new maxBytes⟩
  | succ count ih =>
      have before : count * blockSize block ≤ (count + 1) * blockSize block :=
        Nat.mul_le_mul_right _ (Nat.le_succ _)
      obtain ⟨cache, returned, isBound, follows⟩ :=
        ih (by omega) (before.trans room) (before.trans counted)
      have fits := (follows.fits_copy (by omega)).mpr counted
      refine ⟨cache.insert ⟨0, UInt64.ofNat count⟩ block, ?_, ?_, ?_⟩
      · rw [insertions_succ, CacheCall.runAllChecked, List.foldlM_append]
        change CacheCall.runAllChecked (insertions block count) (new maxBytes) >>= _ = _
        rw [returned, ok_bind, List.foldlM_cons, follows.runChecked_insert, if_pos fits]
        rfl
      · exact (maxBytes_run cache (.insert ⟨0, UInt64.ofNat count⟩ block)).trans isBound
      · have inserted := follows.insert ⟨0, UInt64.ofNat count⟩ block
        rw [isBound, Lru.store_of_room (fresh_copies block (by omega))
          (by rw [total_copies, ← Nat.succ_mul]; exact room), ← copies_succ] at inserted
        exact inserted

/-- The copy that takes the byte count to `2 ^ 64` does not return. -/
theorem insertions_panic (block : BlockData) (maxBytes : Nat) {count : Nat}
    (small : count < 2 ^ 64) (room : count * blockSize block ≤ max maxBytes 1)
    (counted : count * blockSize block ≤ u64Max)
    (full : u64Max < (count + 1) * blockSize block) :
    CacheCall.runAllChecked (insertions block (count + 1)) (new maxBytes) = .error .panic := by
  obtain ⟨cache, returned, -, follows⟩ := insertions_return block maxBytes small room counted
  have overflows : ¬ (CacheCall.insert ⟨0, UInt64.ofNat count⟩ block).Fits cache := by
    rw [follows.fits_copy small]
    omega
  rw [insertions_succ, CacheCall.runAllChecked, List.foldlM_append]
  change CacheCall.runAllChecked (insertions block count) (new maxBytes) >>= _ = _
  rw [returned, ok_bind, List.foldlM_cons, follows.runChecked_insert, if_neg overflows]
  rfl

/-- **The byte count overflows.**  In a cache bounded by the largest word, one block of
`2 ^ 36` bytes fits `2 ^ 28 - 1` times; the next insertion takes the count to `2 ^ 64`. -/
theorem cache_counter_overflows :
    CacheCall.runAllChecked (insertions (blockOf (2 ^ 36)) (2 ^ 28)) (new u64Max) =
      .error .panic := by
  have size : blockSize (blockOf (2 ^ 36)) = 2 ^ 36 := blockSize_blockOf (by norm_num)
  have count : (2 : Nat) ^ 28 = 268435455 + 1 := by norm_num
  rw [count]
  refine insertions_panic (blockOf (2 ^ 36)) u64Max (by norm_num) ?_ ?_ ?_
  · rw [size]
    norm_num [u64Max]
  · rw [size]
    norm_num [u64Max]
  · rw [size]
    norm_num [u64Max]

end BlockCache

end LsmStore
