import LsmStore.Foundation.Layers
import LsmStore.TableFormat

/-!
# Merging tables

Compaction merges the iterators of its input tables, newest first.  A min-heap
holds the current key of each iterator; every round takes the smallest key, lets
the first iterator standing on it win, and advances every iterator standing on
it.  `mergeTables_spec` says what comes out: strictly increasing keys, and for
each key the entry of the first table that holds it, tombstones left out if
they are to be dropped.
-/

set_option autoImplicit false

namespace LsmStore

open Foundation

/-- An iterator and the item it stands on. -/
structure Cursor where
  head : Option (Key × Entry)
  rest : List (Except Error (Key × Entry))

/-- Takes the next item of an iterator. -/
def Cursor.next : List (Except Error (Key × Entry)) → Except Error Cursor
  | [] => .ok ⟨none, []⟩
  | .ok item :: rest => .ok ⟨some item, rest⟩
  | .error cause :: _ => .error cause

/-- The key an iterator stands on. -/
def Cursor.key (cursor : Cursor) : Option Key := cursor.head.map (·.1)

/-- The entry an iterator offers for a key. -/
def Cursor.offers (key : Key) (cursor : Cursor) : Option Entry :=
  match cursor.head with
  | some (held, entry) => if held = key then some entry else none
  | none => none

/-- The order of the heap: by key, then by table index. -/
def heapLe (first second : Key × Nat) : Prop :=
  first.1 < second.1 ∨ first.1 = second.1 ∧ first.2 ≤ second.2

instance : DecidableRel heapLe := fun first second =>
  inferInstanceAs (Decidable (first.1 < second.1 ∨ first.1 = second.1 ∧ first.2 ≤ second.2))

/-- A priority queue, kept as a sorted list. -/
def heapPush (heap : List (Key × Nat)) (item : Key × Nat) : List (Key × Nat) :=
  heap.orderedInsert heapLe item

/-- Starts every iterator. -/
def startAll : List (List (Except Error (Key × Entry))) → Except Error (List Cursor)
  | [] => .ok []
  | items :: rest =>
      match Cursor.next items with
      | .error cause => .error cause
      | .ok cursor =>
          match startAll rest with
          | .error cause => .error cause
          | .ok cursors => .ok (cursor :: cursors)

/-- Pushes the current key of every iterator, counting table indices from `index`. -/
def initialHeap : Nat → List Cursor → List (Key × Nat) → List (Key × Nat)
  | _, [], heap => heap
  | index, cursor :: rest, heap =>
      match cursor.head with
      | some item => initialHeap (index + 1) rest (heapPush heap (item.1, index))
      | none => initialHeap (index + 1) rest heap

/-- Advances every iterator that stands on the key and pushes what it moves to. -/
def advanceAll (key : Key) : Nat → List Cursor → List (Key × Nat) →
    Except Error (List Cursor × List (Key × Nat))
  | _, [], heap => .ok ([], heap)
  | index, cursor :: rest, heap =>
      if cursor.key = some key then
        match Cursor.next cursor.rest with
        | .error cause => .error cause
        | .ok moved =>
            let heap :=
              match moved.head with
              | some item => heapPush heap (item.1, index)
              | none => heap
            match advanceAll key (index + 1) rest heap with
            | .error cause => .error cause
            | .ok (cursors, heap) => .ok (moved :: cursors, heap)
      else
        match advanceAll key (index + 1) rest heap with
        | .error cause => .error cause
        | .ok (cursors, heap) => .ok (cursor :: cursors, heap)

/-- The merge loop. -/
def mergeLoop (dropTombstones : Bool) :
    Nat → List Cursor → List (Key × Nat) → Except Error (List (Key × Entry))
  | 0, _, _ => .ok []
  | _ + 1, _, [] => .ok []
  | fuel + 1, cursors, (key, _) :: heap =>
      let heap := heap.dropWhile fun item => item.1 = key
      let winner := cursors.findSome? (Cursor.offers key)
      match advanceAll key 0 cursors heap with
      | .error cause => .error cause
      | .ok (cursors, heap) =>
          match mergeLoop dropTombstones fuel cursors heap with
          | .error cause => .error cause
          | .ok out =>
              match winner with
              | some .tombstone =>
                  if dropTombstones then .ok out else .ok ((key, .tombstone) :: out)
              | some (.value bytes) => .ok ((key, .value bytes) :: out)
              | none => .ok out

/-- Merges the iterators of the input tables, newest first. -/
def mergeTables (iterators : List (List (Except Error (Key × Entry)))) (dropTombstones : Bool) :
    Except Error (List (Key × Entry)) :=
  match startAll iterators with
  | .error cause => .error cause
  | .ok cursors =>
      mergeLoop dropTombstones ((iterators.map List.length).sum + 1) cursors
        (initialHeap 0 cursors [])

/-! ## Iterators over sorted runs -/

/-- The iterator over the pairs of a run, started. -/
def cursorOf : List (Key × Entry) → Cursor
  | [] => ⟨none, []⟩
  | item :: rest => ⟨some item, rest.map .ok⟩

/-- The first key of a run. -/
def headKey (run : List (Key × Entry)) : Option Key := run.head?.map (·.1)

/-- A run after the merge has consumed a key. -/
def skip (key : Key) (run : List (Key × Entry)) : List (Key × Entry) :=
  if headKey run = some key then run.tail else run

@[simp] theorem key_cursorOf (run : List (Key × Entry)) : (cursorOf run).key = headKey run := by
  cases run <;> rfl

@[simp] theorem next_map_ok (run : List (Key × Entry)) :
    Cursor.next (run.map .ok) = .ok (cursorOf run) := by
  cases run <;> rfl

theorem startAll_map_ok (runs : List (List (Key × Entry))) :
    startAll (runs.map (List.map .ok)) = .ok (runs.map cursorOf) := by
  induction runs with
  | nil => rfl
  | cons run rest ih => simp only [List.map_cons, startAll, next_map_ok, ih]

/-- Every key of a sorted run is at least its first key. -/
theorem le_of_headKey {run : List (Key × Entry)} (sorted : KeySorted run) {bound : Key}
    (atLeast : ∀ key, headKey run = some key → bound ≤ key) :
    ∀ pair ∈ run, bound ≤ pair.1 := by
  cases run with
  | nil => exact fun _ member => nomatch member
  | cons head rest =>
      intro pair member
      exact le_trans (atLeast head.1 rfl) (sorted.head_le member)

theorem sorted_skip {run : List (Key × Entry)} (sorted : KeySorted run) (key : Key) :
    KeySorted (skip key run) := by
  unfold skip
  split
  · cases run with
    | nil => exact sorted
    | cons head rest => exact sorted.tail
  · exact sorted

/-- What a run offers for the smallest key is what it holds for it. -/
theorem offers_cursorOf {run : List (Key × Entry)} (sorted : KeySorted run) {key : Key}
    (atLeast : ∀ other, headKey run = some other → key ≤ other) :
    (cursorOf run).offers key = valueAt run key := by
  cases run with
  | nil => rfl
  | cons head rest =>
      obtain ⟨held, entry⟩ := head
      have low : key ≤ held := atLeast held rfl
      simp only [cursorOf, Cursor.offers, valueAt]
      by_cases same : held = key
      · rw [if_pos same, if_pos same.symm]
      · rw [if_neg same, if_neg (Ne.symm same)]
        symm
        refine valueAt_eq_none_iff.mpr fun pair member equal => ?_
        have above := sorted.head_lt member
        rw [equal] at above
        exact absurd above (not_lt.mpr low)

/-- Consuming the smallest key removes exactly that key. -/
theorem valueAt_skip {run : List (Key × Entry)} (sorted : KeySorted run) {key : Key}
    (atLeast : ∀ other, headKey run = some other → key ≤ other) (wanted : Key) :
    valueAt (skip key run) wanted = if wanted = key then none else valueAt run wanted := by
  cases run with
  | nil => simp [skip, headKey]
  | cons head rest =>
      obtain ⟨held, entry⟩ := head
      have low : key ≤ held := atLeast held rfl
      have later : ∀ pair ∈ rest, held < pair.1 := fun pair member => sorted.head_lt member
      unfold skip headKey
      by_cases same : held = key
      · subst same
        rw [List.head?_cons, Option.map_some, if_pos rfl, List.tail_cons, valueAt]
        split
        · rename_i atKey
          rw [atKey]
          exact valueAt_eq_none_iff.mpr fun pair member => ne_of_gt (later pair member)
        · rfl
      · rw [List.head?_cons, Option.map_some, if_neg (by simpa using same)]
        split
        · rename_i atKey
          subst atKey
          refine valueAt_eq_none_iff.mpr fun pair member equal => ?_
          rcases List.mem_cons.mp member with rfl | further
          · exact same equal
          · have above := later pair further
            rw [equal] at above
            exact absurd above (not_lt.mpr low)
        · rfl

/-! ## The heap -/

/-- The heap is sorted by key. -/
def HeapSorted (heap : List (Key × Nat)) : Prop :=
  heap.Pairwise fun first second => first.1 ≤ second.1

theorem mem_heapPush {heap : List (Key × Nat)} {item other : Key × Nat} :
    other ∈ heapPush heap item ↔ other = item ∨ other ∈ heap :=
  List.mem_orderedInsert _

theorem HeapSorted.push {heap : List (Key × Nat)} (sorted : HeapSorted heap)
    (item : Key × Nat) : HeapSorted (heapPush heap item) := by
  induction heap with
  | nil => exact List.pairwise_singleton _ _
  | cons first rest ih =>
      obtain ⟨below, sortedRest⟩ := List.pairwise_cons.mp sorted
      unfold heapPush
      rw [List.orderedInsert]
      split
      · rename_i before
        have low : item.1 ≤ first.1 := before.elim le_of_lt fun tie => le_of_eq tie.1
        refine List.pairwise_cons.mpr ⟨fun other member => ?_, sorted⟩
        rcases List.mem_cons.mp member with rfl | later
        · exact low
        · exact le_trans low (below other later)
      · rename_i notBefore
        have low : first.1 ≤ item.1 := by
          by_contra above
          exact notBefore (.inl (not_le.mp above))
        refine List.pairwise_cons.mpr ⟨fun other member => ?_, ih sortedRest⟩
        rcases mem_heapPush.mp member with rfl | later
        · exact low
        · exact below other later

/-- Popping the items with the smallest key leaves the others. -/
theorem mem_dropWhile_key {heap : List (Key × Nat)} (sorted : HeapSorted heap) {key : Key}
    (atLeast : ∀ item ∈ heap, key ≤ item.1) {item : Key × Nat} :
    item ∈ heap.dropWhile (fun item => item.1 = key) ↔ item ∈ heap ∧ item.1 ≠ key := by
  induction heap with
  | nil => simp
  | cons first rest ih =>
      obtain ⟨below, sortedRest⟩ := List.pairwise_cons.mp sorted
      have restAtLeast := fun other member => atLeast other (List.mem_cons_of_mem first member)
      by_cases same : first.1 = key
      · rw [List.dropWhile_cons_of_pos (by simpa using same), ih sortedRest restAtLeast]
        constructor
        · rintro ⟨member, different⟩
          exact ⟨List.mem_cons_of_mem _ member, different⟩
        · rintro ⟨member, different⟩
          rcases List.mem_cons.mp member with rfl | later
          · exact absurd same different
          · exact ⟨later, different⟩
      · have above : key < first.1 :=
          lt_of_le_of_ne (atLeast first List.mem_cons_self) (Ne.symm same)
        rw [List.dropWhile_cons_of_neg (by simpa using same)]
        refine ⟨fun member => ⟨member, ?_⟩, fun both => both.1⟩
        rcases List.mem_cons.mp member with rfl | later
        · exact same
        · exact ne_of_gt (lt_of_lt_of_le above (below item later))

/-- The heap holds exactly the keys the iterators stand on. -/
structure HeapOf (runs : List (List (Key × Entry))) (heap : List (Key × Nat)) : Prop where
  sorted : HeapSorted heap
  keys : ∀ key, (∃ item ∈ heap, item.1 = key) ↔ ∃ run ∈ runs, headKey run = some key

theorem initialHeap_spec (runs : List (List (Key × Entry))) (index : Nat)
    {heap : List (Key × Nat)} (sorted : HeapSorted heap) :
    HeapSorted (initialHeap index (runs.map cursorOf) heap) ∧
      ∀ key, (∃ item ∈ initialHeap index (runs.map cursorOf) heap, item.1 = key) ↔
        (∃ item ∈ heap, item.1 = key) ∨ ∃ run ∈ runs, headKey run = some key := by
  induction runs generalizing index heap with
  | nil => exact ⟨sorted, by simp [initialHeap]⟩
  | cons run rest ih =>
      cases run with
      | nil =>
          obtain ⟨sorted', keys⟩ := ih (index + 1) sorted
          refine ⟨sorted', fun key => (keys key).trans ?_⟩
          simp [headKey]
      | cons head tail =>
          obtain ⟨sorted', keys⟩ := ih (index + 1) (sorted.push (head.1, index))
          refine ⟨sorted', fun key => (keys key).trans ?_⟩
          simp only [mem_heapPush, List.mem_cons, exists_eq_or_imp, headKey, List.head?_cons,
            Option.map_some, Option.some.injEq]
          rw [or_assoc, or_left_comm]

theorem heapOf_initialHeap (runs : List (List (Key × Entry))) :
    HeapOf runs (initialHeap 0 (runs.map cursorOf) []) := by
  obtain ⟨sorted, keys⟩ := initialHeap_spec runs 0 (List.Pairwise.nil : HeapSorted [])
  exact ⟨sorted, fun key => (keys key).trans (by simp)⟩

/-- Advancing consumes the key from every run and pushes the new current keys. -/
theorem advanceAll_spec (key : Key) (runs : List (List (Key × Entry))) (index : Nat)
    {heap : List (Key × Nat)} (sorted : HeapSorted heap) :
    ∃ heap', advanceAll key index (runs.map cursorOf) heap =
        .ok ((runs.map (skip key)).map cursorOf, heap') ∧ HeapSorted heap' ∧
      ∀ other, (∃ item ∈ heap', item.1 = other) ↔ (∃ item ∈ heap, item.1 = other) ∨
        ∃ run ∈ runs, headKey run = some key ∧ headKey (skip key run) = some other := by
  induction runs generalizing index heap with
  | nil => exact ⟨heap, rfl, sorted, by simp⟩
  | cons run rest ih =>
      by_cases standing : headKey run = some key
      · obtain ⟨head, tail, rfl⟩ : ∃ head tail, run = head :: tail := by
          cases run with
          | nil => cases standing
          | cons head tail => exact ⟨head, tail, rfl⟩
        have skipped : skip key (head :: tail) = tail := by rw [skip, if_pos standing, List.tail_cons]
        have keyIs : (cursorOf (head :: tail)).key = some key := by rw [key_cursorOf, standing]
        cases tail with
        | nil =>
            obtain ⟨heap', advanced, sorted', keys⟩ := ih (index + 1) sorted
            refine ⟨heap', ?_, sorted', fun other => (keys other).trans ?_⟩
            · rw [List.map_cons, advanceAll, if_pos keyIs]
              simp only [cursorOf, List.map_nil, Cursor.next, advanced, List.map_cons, skipped]
            · simp [skipped, headKey]
        | cons second tail =>
            obtain ⟨heap', advanced, sorted', keys⟩ := ih (index + 1) (sorted.push (second.1, index))
            refine ⟨heap', ?_, sorted', fun other => (keys other).trans ?_⟩
            · rw [List.map_cons, advanceAll, if_pos keyIs]
              simp only [cursorOf, Cursor.next, advanced, List.map_cons, skipped]
            · simp only [mem_heapPush, List.mem_cons, exists_eq_or_imp, standing, skipped, true_and]
              simp only [headKey, List.head?_cons, Option.map_some, Option.some.injEq]
              rw [or_assoc, or_left_comm]
      · obtain ⟨heap', advanced, sorted', keys⟩ := ih (index + 1) sorted
        have skipped : skip key run = run := by rw [skip, if_neg standing]
        refine ⟨heap', ?_, sorted', fun other => (keys other).trans ?_⟩
        · simp only [List.map_cons, advanceAll, key_cursorOf, standing, if_false, advanced, skipped]
        · simp [standing]

/-! ## What the merge returns -/

/-- An entry as it goes into the output: nothing, if it is a tombstone to drop. -/
def keepEntry (dropTombstones : Bool) (entry : Option Entry) : Option Entry :=
  entry.filter fun found => !(dropTombstones && decide (found = .tombstone))

/-- The newest entry of a key in a list of runs, newest first. -/
def newestAt (runs : List (List (Key × Entry))) (key : Key) : Option Entry :=
  runs.findSome? fun run => valueAt run key

theorem newestAt_skip {runs : List (List (Key × Entry))} (sorted : ∀ run ∈ runs, KeySorted run)
    {key : Key} (atLeast : ∀ run ∈ runs, ∀ other, headKey run = some other → key ≤ other)
    (wanted : Key) :
    newestAt (runs.map (skip key)) wanted = if wanted = key then none else newestAt runs wanted := by
  unfold newestAt
  rw [List.findSome?_map]
  split
  · rename_i same
    refine List.findSome?_eq_none_iff.mpr fun run member => ?_
    rw [Function.comp_apply, valueAt_skip (sorted run member) (atLeast run member), if_pos same]
  · rename_i different
    refine findSome?_congr fun run member => ?_
    rw [Function.comp_apply, valueAt_skip (sorted run member) (atLeast run member),
      if_neg different]

/-- One round of the loop: the smallest key with the entry of the first run
that holds it, in front of the merge of what is left. -/
theorem round_spec {runs : List (List (Key × Entry))} (sorted : ∀ run ∈ runs, KeySorted run)
    {key : Key} (atLeast : ∀ run ∈ runs, ∀ other, headKey run = some other → key ≤ other)
    {dropTombstones : Bool} {out : List (Key × Entry)} (outSorted : KeySorted out)
    (outSpec : ∀ wanted, valueAt out wanted =
      keepEntry dropTombstones (newestAt (runs.map (skip key)) wanted))
    {entry : Entry} (winner : newestAt runs key = some entry) :
    let result := if dropTombstones = true ∧ entry = .tombstone then out else (key, entry) :: out
    KeySorted result ∧ ∀ wanted, valueAt result wanted =
      keepEntry dropTombstones (newestAt runs wanted) := by
  have atKey : valueAt out key = none := by
    rw [outSpec, newestAt_skip sorted atLeast, if_pos rfl]
    rfl
  have others : ∀ wanted, wanted ≠ key →
      valueAt out wanted = keepEntry dropTombstones (newestAt runs wanted) := by
    intro wanted different
    rw [outSpec, newestAt_skip sorted atLeast, if_neg different]
  have above : ∀ pair ∈ out, key < pair.1 := by
    intro pair member
    have found := outSorted.valueAt_of_mem member
    have different : pair.1 ≠ key := by
      intro same
      rw [same, atKey] at found
      cases found
    rw [others pair.1 different] at found
    obtain ⟨held, _⟩ := Option.filter_eq_some_iff.mp found
    obtain ⟨run, isRun, inRun⟩ := List.exists_of_findSome?_eq_some held
    have low := le_of_headKey (sorted run isRun) (atLeast run isRun) _ (mem_of_valueAt inRun)
    exact lt_of_le_of_ne low (Ne.symm different)
  dsimp only
  split
  · rename_i dropped
    refine ⟨outSorted, fun wanted => ?_⟩
    by_cases same : wanted = key
    · rw [same, atKey, winner, dropped.2, dropped.1]
      rfl
    · exact others wanted same
  · rename_i kept
    refine ⟨List.pairwise_cons.mpr ⟨above, outSorted⟩, fun wanted => ?_⟩
    rw [valueAt]
    split
    · rename_i same
      rw [same, winner]
      symm
      refine Option.filter_eq_some_iff.mpr ⟨rfl, ?_⟩
      by_cases drops : dropTombstones = true <;> by_cases isTombstone : entry = .tombstone <;>
        simp_all
    · rename_i different
      exact others wanted different

/-- The loop returns the merge of the runs its iterators stand on. -/
theorem mergeLoop_spec (dropTombstones : Bool) {fuel : Nat} {runs : List (List (Key × Entry))}
    {heap : List (Key × Nat)} (sorted : ∀ run ∈ runs, KeySorted run) (heapOf : HeapOf runs heap)
    (enough : (runs.map List.length).sum < fuel) :
    ∃ out, mergeLoop dropTombstones fuel (runs.map cursorOf) heap = .ok out ∧ KeySorted out ∧
      ∀ key, valueAt out key = keepEntry dropTombstones (newestAt runs key) := by
  -- Every round consumes the smallest key, so the number of items left decreases.
  induction fuel generalizing runs heap with
  | zero => exact absurd enough (Nat.not_lt_zero _)
  | succ fuel ih =>
      cases heap with
      | nil =>
          refine ⟨[], rfl, List.Pairwise.nil, fun key => ?_⟩
          have empty : ∀ run ∈ runs, run = [] := by
            intro run member
            cases run with
            | nil => rfl
            | cons head rest =>
                obtain ⟨item, impossible, _⟩ := (heapOf.keys head.1).mpr ⟨_, member, rfl⟩
                cases impossible
          have nothing : newestAt runs key = none :=
            List.findSome?_eq_none_iff.mpr fun run member => by rw [empty run member, valueAt_nil]
          rw [nothing]
          rfl
      | cons top heap =>
          obtain ⟨key, index⟩ := top
          obtain ⟨below, heapSorted⟩ := List.pairwise_cons.mp heapOf.sorted
          have atLeast : ∀ run ∈ runs, ∀ other, headKey run = some other → key ≤ other := by
            intro run member other isHead
            obtain ⟨item, inHeap, rfl⟩ := (heapOf.keys other).mpr ⟨run, member, isHead⟩
            rcases List.mem_cons.mp inHeap with rfl | later
            · exact le_refl _
            · exact below item later
          have popSorted : HeapSorted (heap.dropWhile fun item => item.1 = key) :=
            heapSorted.sublist (List.dropWhile_sublist _)
          obtain ⟨heap', advanced, sorted', keys⟩ := advanceAll_spec key runs 0 popSorted
          have heapOf' : HeapOf (runs.map (skip key)) heap' := by
            refine ⟨sorted', fun other => (keys other).trans ?_⟩
            constructor
            · rintro (⟨item, inHeap, rfl⟩ | ⟨run, member, _, moved⟩)
              · obtain ⟨inHeap, different⟩ := (mem_dropWhile_key heapSorted below).mp inHeap
                obtain ⟨run, member, isHead⟩ :=
                  (heapOf.keys item.1).mp ⟨item, List.mem_cons_of_mem _ inHeap, rfl⟩
                refine ⟨skip key run, List.mem_map_of_mem member, ?_⟩
                rw [skip, if_neg (by rw [isHead]; simpa using different)]
                exact isHead
              · exact ⟨skip key run, List.mem_map_of_mem member, moved⟩
            · rintro ⟨_, inMap, isHead⟩
              obtain ⟨run, member, rfl⟩ := List.mem_map.mp inMap
              by_cases standing : headKey run = some key
              · exact .inr ⟨run, member, standing, isHead⟩
              · rw [skip, if_neg standing] at isHead
                obtain ⟨item, inHeap, isKey⟩ := (heapOf.keys other).mpr ⟨run, member, isHead⟩
                have different : item.1 ≠ key := by
                  rw [isKey]
                  intro same
                  exact standing (same ▸ isHead)
                refine .inl ⟨item, (mem_dropWhile_key heapSorted below).mpr ⟨?_, different⟩, isKey⟩
                rcases List.mem_cons.mp inHeap with rfl | later
                · exact absurd rfl different
                · exact later
          have skipSorted : ∀ run ∈ runs.map (skip key), KeySorted run := by
            intro run member
            obtain ⟨old, isRun, rfl⟩ := List.mem_map.mp member
            exact sorted_skip (sorted old isRun) key
          obtain ⟨standing, isRun, isHead⟩ :=
            (heapOf.keys key).mp ⟨(key, index), List.mem_cons_self, rfl⟩
          have fewer : ((runs.map (skip key)).map List.length).sum < (runs.map List.length).sum := by
            rw [List.map_map]
            refine List.sum_lt_sum _ _ (fun run _ => ?_) ⟨standing, isRun, ?_⟩
            · rw [Function.comp_apply, skip]
              split <;> simp
            · rw [Function.comp_apply, skip, if_pos isHead, List.length_tail]
              have nonempty : standing ≠ [] := by
                rintro rfl
                cases isHead
              have := List.length_pos_of_ne_nil nonempty
              omega
          obtain ⟨out, merged, outSorted, outSpec⟩ := ih skipSorted heapOf' (by omega)
          have winnerIs : (runs.map cursorOf).findSome? (Cursor.offers key) = newestAt runs key := by
            rw [List.findSome?_map]
            exact findSome?_congr fun run member =>
              offers_cursorOf (sorted run member) (atLeast run member)
          obtain ⟨entry, winner⟩ : ∃ entry, newestAt runs key = some entry := by
            rw [← Option.ne_none_iff_exists']
            intro nothing
            have missing := List.findSome?_eq_none_iff.mp nothing standing isRun
            cases standing with
            | nil => cases isHead
            | cons head rest =>
                rw [valueAt, if_pos (by simpa [headKey] using isHead.symm)] at missing
                cases missing
          have round := round_spec sorted atLeast outSorted outSpec winner
          refine ⟨_, ?_, round⟩
          simp only [mergeLoop, advanced, merged, winnerIs, winner]
          cases entry with
          | value bytes => simp
          | tombstone => cases dropTombstones <;> simp

/-- **The merge of sorted tables.** The output has strictly increasing keys;
for each key it holds the entry of the first table that holds the key, unless
that is a tombstone to drop. -/
theorem mergeTables_spec {runs : List (List (Key × Entry))} (sorted : ∀ run ∈ runs, KeySorted run)
    (dropTombstones : Bool) :
    ∃ out, mergeTables (runs.map (List.map .ok)) dropTombstones = .ok out ∧ KeySorted out ∧
      ∀ key, valueAt out key = keepEntry dropTombstones (newestAt runs key) := by
  unfold mergeTables
  rw [startAll_map_ok]
  refine mergeLoop_spec dropTombstones sorted (heapOf_initialHeap runs) ?_
  rw [List.map_map]
  have lengths : (List.length ∘ List.map (Except.ok : Key × Entry → Except Error (Key × Entry))) =
      List.length := by
    funext run
    exact List.length_map _
  rw [lengths]
  exact Nat.lt_succ_self _

/-- The newest entry of a key is that of the first run that has the key. -/
theorem newestAt_eq_some_iff {runs : List (List (Key × Entry))}
    (sorted : ∀ run ∈ runs, KeySorted run) {key : Key} {entry : Entry} :
    newestAt runs key = some entry ↔
      ∃ before run after, runs = before ++ run :: after ∧ (key, entry) ∈ run ∧
        ∀ newer ∈ before, key ∉ newer.map Prod.fst := by
  have absent : ∀ run : List (Key × Entry), valueAt run key = none ↔ key ∉ run.map Prod.fst := by
    intro run
    rw [valueAt_eq_none_iff, List.mem_map]
    simp only [not_exists, not_and, ne_eq]
  rw [newestAt, List.findSome?_eq_some_iff]
  constructor
  · rintro ⟨before, run, after, rfl, found, missing⟩
    exact ⟨before, run, after, rfl, mem_of_valueAt found,
      fun newer member => (absent newer).mp (missing newer member)⟩
  · rintro ⟨before, run, after, rfl, member, missing⟩
    exact ⟨before, run, after, rfl, (sorted run (by simp)).valueAt_of_mem member,
      fun newer isNewer => (absent newer).mpr (missing newer isNewer)⟩

/-- Some run has the key exactly when it has a newest entry. -/
theorem exists_newestAt_iff {runs : List (List (Key × Entry))}
    (sorted : ∀ run ∈ runs, KeySorted run) {key : Key} :
    (∃ entry, newestAt runs key = some entry) ↔ ∃ run ∈ runs, key ∈ run.map Prod.fst := by
  rw [← Option.ne_none_iff_exists', newestAt, Ne, List.findSome?_eq_none_iff]
  simp only [not_forall, exists_prop]
  refine exists_congr fun run => and_congr_right fun member => ?_
  rw [← Ne, Option.ne_none_iff_exists', List.mem_map]
  constructor
  · rintro ⟨entry, found⟩
    exact ⟨(key, entry), mem_of_valueAt found, rfl⟩
  · rintro ⟨⟨_, entry⟩, inRun, rfl⟩
    exact ⟨entry, (sorted run member).valueAt_of_mem inRun⟩

/-- Dropping tombstones is leaving them out of the merge that keeps them. -/
theorem mergeTables_drop {runs : List (List (Key × Entry))}
    (sorted : ∀ run ∈ runs, KeySorted run) {merged : List (Key × Entry)}
    (mergedSorted : KeySorted merged)
    (spec : ∀ key, valueAt merged key = keepEntry false (newestAt runs key)) :
    mergeTables (runs.map (List.map .ok)) true =
      .ok (merged.filter fun pair => pair.2 ≠ .tombstone) := by
  obtain ⟨out, dropped, outSorted, outSpec⟩ := mergeTables_spec sorted true
  have same : out = merged.filter fun pair => pair.2 ≠ .tombstone := by
    refine outSorted.ext (mergedSorted.filter _) fun key => ?_
    rw [outSpec, mergedSorted.valueAt_filter, spec]
    simp [keepEntry]
  rw [dropped, same]

end LsmStore
