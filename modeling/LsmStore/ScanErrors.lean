import LsmStore.ScanReads

/-!
# Scans that go on after a failed read

A caller may go on calling `next` after an error.  The source whose block could
not be read still stands on its item, and reads the same block again when it is
advanced the next time; the sources in front of it have left the key already.
So the next call takes the entry of the source that failed, which is an older
one if a source in front of it stood on the same key.

Each call is given its own view of the table files, in which the read of any
block may fail (`Glimpses`).  The invariant of the calls is that a value the
sources still show as the newest of its key was the newest when the scan was
opened (`Resumes`).  Only a failed read of a source that stands on an outdated
value breaks it (`Harmless`); without one, every pair ever yielded is right and
the keys increase (`scan_goes_on_after_errors`).  A deleted key comes back
otherwise (`scan_revives_deleted_key`).
-/

set_option autoImplicit false

namespace LsmStore

open Foundation

/-! ## Views of the files -/

/-- The blocks that a source has not read yet. -/
def SourceRest.blocks : SourceRest → List (UInt64 × IndexEntry)
  | .vec _ => []
  | .table id iterator => iterator.remaining.map fun row => (id, row)

/-- A call reads each block as it is in the file, or the read fails. -/
def Glimpse (files seen : UInt64 → Option Bytes) (block : UInt64 × IndexEntry) : Prop :=
  readBlock (seen block.1) block.2 = readBlock (files block.1) block.2 ∨
    ∃ cause, readBlock (seen block.1) block.2 = .error cause

/-- What one call sees of the blocks that are still to be read. -/
def Glimpses (files seen : UInt64 → Option Bytes) (iterator : EngineIterator) : Prop :=
  ∀ source ∈ iterator.sources, ∀ block ∈ source.rest.blocks, Glimpse files seen block

namespace EngineIterator

/-- The outcomes of calls of `next`, each with its own view of the files. -/
def callsSeeing : List (UInt64 → Option Bytes) → EngineIterator →
    List (Option (Except Error (Key × Bytes)))
  | [], _ => []
  | seen :: views, iterator =>
      (iterator.next seen).1 :: callsSeeing views (iterator.next seen).2

/-- The condition is met by each call and the iterator it is made on. -/
def EachCall (Meets : (UInt64 → Option Bytes) → EngineIterator → Prop) :
    List (UInt64 → Option Bytes) → EngineIterator → Prop
  | [], _ => True
  | seen :: views, iterator =>
      Meets seen iterator ∧ EachCall Meets views (iterator.next seen).2

end EngineIterator

/-- The pairs among the outcomes of calls. -/
def yielded (outcomes : List (Option (Except Error (Key × Bytes)))) : List (Key × Bytes) :=
  outcomes.filterMap fun
    | some (.ok pair) => some pair
    | _ => none

/-! ## Moving a source that may fail -/

section Moving

open PeekSource

variable {files seen : UInt64 → Option Bytes} {start stop : Bound} {id : UInt64}

/-- What a table iterator still has in its file after a call that may have failed. -/
theorem nextFrom_seen {remaining : List IndexEntry} {current : BlockData}
    (glimpses : ∀ row ∈ remaining, Glimpse files seen (id, row)) :
    (TableIterator.nextFrom (seen id) remaining current).2.remaining ⊆ remaining ∧
      match (TableIterator.nextFrom (seen id) remaining current).1 with
      | none => TableIterator.items (files id) ⟨remaining, current⟩ = []
      | some (.error _) =>
          TableIterator.items (files id) (TableIterator.nextFrom (seen id) remaining current).2 =
            TableIterator.items (files id) ⟨remaining, current⟩
      | some (.ok item) => TableIterator.items (files id) ⟨remaining, current⟩ = .ok item ::
          TableIterator.items (files id)
            (TableIterator.nextFrom (seen id) remaining current).2 := by
  induction remaining generalizing current with
  | nil => cases current <;> exact ⟨List.Subset.refl _, rfl⟩
  | cons row rest ih =>
      cases current with
      | cons item current => exact ⟨List.Subset.refl _, rfl⟩
      | nil =>
          cases read : readBlock (seen id) row with
          | error cause =>
              simp only [TableIterator.nextFrom, read]
              exact ⟨List.Subset.refl _, trivial⟩
          | ok block =>
              have same : readBlock (files id) row = .ok block := by
                rcases glimpses row List.mem_cons_self with same | ⟨cause, failed⟩
                · exact same.symm.trans read
                · cases read.symm.trans failed
              have items : TableIterator.items (files id) ⟨row :: rest, []⟩ =
                  TableIterator.items (files id) ⟨rest, block⟩ := by
                simp [TableIterator.items, TableIterator.unread, same]
              have step : TableIterator.nextFrom (seen id) (row :: rest) [] =
                  TableIterator.nextFrom (seen id) rest block := by
                simp [TableIterator.nextFrom, read]
              obtain ⟨fewer, found⟩ :=
                @ih block fun later member => glimpses later (List.mem_cons_of_mem _ member)
              rw [step, items]
              exact ⟨List.Subset.trans fewer (List.subset_cons_self _ _), found⟩

/-- What the window of a table still holds after a search that may have failed. -/
theorem nextInRangeLoop_seen {fuel : Nat} {iterator : TableIterator}
    (enough : (iterator.items (seen id)).length < fuel)
    (glimpses : ∀ row ∈ iterator.remaining, Glimpse files seen (id, row)) :
    (nextInRangeLoop (seen id) start stop fuel iterator).2.remaining ⊆ iterator.remaining ∧
      match (nextInRangeLoop (seen id) start stop fuel iterator).1 with
      | .error _ => window start stop
          ((nextInRangeLoop (seen id) start stop fuel iterator).2.items (files id)) =
            window start stop (iterator.items (files id))
      | .ok none => window start stop (iterator.items (files id)) = []
      | .ok (some pair) => window start stop (iterator.items (files id)) = .ok pair ::
          window start stop
            ((nextInRangeLoop (seen id) start stop fuel iterator).2.items (files id)) := by
  induction fuel generalizing iterator with
  | zero => exact absurd enough (Nat.not_lt_zero _)
  | succ fuel ih =>
      obtain ⟨remaining, current⟩ := iterator
      obtain ⟨fewer, kept⟩ := @nextFrom_seen files seen id remaining current glimpses
      have shorter := TableIterator.nextFrom_cases (seen id) remaining current
      rw [nextInRangeLoop, TableIterator.next]
      generalize TableIterator.nextFrom (seen id) remaining current = result at fewer kept shorter
      obtain ⟨outcome, after⟩ := result
      rcases outcome with _ | cause | ⟨key, entry⟩
      · exact ⟨fewer, by rw [show _ = [] from kept]; rfl⟩
      · exact ⟨fewer, by rw [show TableIterator.items (files id) after = _ from kept]⟩
      · have kept : TableIterator.items (files id) ⟨remaining, current⟩ =
            .ok (key, entry) :: TableIterator.items (files id) after := kept
        rcases shorter with ⟨_, found⟩ | ⟨_, _, found⟩ | ⟨item, items, found⟩
        · cases found
        · cases found
        · cases found
          rw [items, List.length_cons] at enough
          rw [kept, window]
          dsimp only
          split_ifs with within past
          · exact ⟨fewer, rfl⟩
          · exact ⟨fewer, rfl⟩
          · obtain ⟨fewer', kept'⟩ := @ih after (Nat.lt_of_succ_lt_succ enough)
              fun row member => glimpses row (fewer member)
            exact ⟨List.Subset.trans fewer' fewer, kept'⟩

/-- A source that is advanced has its next item, or stands where it stood and shows
the failed read right behind its item. -/
theorem advance_seen {source : PeekSource} {run : List (Key × Entry)} {key : Key} {entry : Entry}
    (offers : Offers files start stop source ((key, entry) :: run))
    (glimpses : ∀ block ∈ source.rest.blocks, Glimpse files seen block) :
    (∃ source', source.advance seen start stop = (.ok (), source') ∧
      Offers files start stop source' run ∧ source'.rest.blocks ⊆ source.rest.blocks) ∨
    ∃ cause source', source.advance seen start stop = (.error cause, source') ∧
      Offers files start stop source' ((key, entry) :: run) ∧
      source.pending seen start stop = [.ok (key, entry), .error cause] := by
  have isNext : source.next = some (key, entry) := offers.next_eq
  have rest : source.rest.pending files start stop = run.map .ok :=
    offers.rest_eq (standsOn_iff.mpr ⟨entry, isNext⟩)
  obtain ⟨held, behind⟩ := source
  obtain rfl : held = some (key, entry) := isNext
  cases behind with
  | vec items =>
      refine .inl ⟨_, rfl, ?_, List.Subset.refl _⟩
      rw [← map_ok_injective rest]
      cases items <;> rfl
  | table id iterator =>
      have rows : ∀ row ∈ iterator.remaining, Glimpse files seen (id, row) := fun row member =>
        glimpses (id, row) (List.mem_map_of_mem member)
      have enough := Nat.lt_succ_self (iterator.items (seen id)).length
      obtain ⟨fewer, kept⟩ := @nextInRangeLoop_seen files seen start stop id _ _ enough rows
      have inView := @nextInRangeLoop_cases (seen id) start stop _ _ enough
      simp only [advance, nextInRange]
      generalize nextInRangeLoop (seen id) start stop _ iterator = result at fewer kept inView
      obtain ⟨outcome, after⟩ := result
      have blocks : (SourceRest.table id after).blocks ⊆ (SourceRest.table id iterator).blocks :=
        List.map_subset _ fewer
      rcases outcome with cause | _ | pair
      · refine .inr ⟨cause, _, rfl, ?_, ?_⟩
        · rw [Offers, pending_of_next rfl, SourceRest.pending,
            show window start stop (after.items (files id)) = _ from kept]
          exact congrArg (_ :: ·) rest
        · rcases inView with ⟨_, moved, _⟩ | ⟨cause', _, moved, shown⟩ | ⟨_, _, moved, _⟩
          · cases moved
          · cases moved
            rw [pending_of_next rfl, SourceRest.pending, shown]
          · cases moved
      · refine .inl ⟨_, rfl, ?_, blocks⟩
        rw [SourceRest.pending, show window start stop (iterator.items (files id)) = _ from kept]
          at rest
        rw [List.map_eq_nil_iff.mp rest.symm]
        rfl
      · refine .inl ⟨_, rfl, ?_, blocks⟩
        rw [Offers, ← rest, pending_of_next rfl, SourceRest.pending, SourceRest.pending,
          show window start stop (iterator.items (files id)) = _ from kept]

/-- The sources on a key are advanced up to the first one that fails. -/
theorem advanceSources_seen {sources : List PeekSource} {runs : List (List (Key × Entry))}
    (offers : List.Forall₂ (Offers files start stop) sources runs) (key : Key)
    (glimpses : ∀ source ∈ sources, ∀ block ∈ source.rest.blocks, Glimpse files seen block) :
    (∃ sources', advanceSources seen start stop key sources = (.ok (), sources') ∧
      List.Forall₂ (Offers files start stop) sources' (runs.map (skip key)) ∧
      ∀ source ∈ sources', ∀ block ∈ source.rest.blocks, Glimpse files seen block) ∨
    ∃ cause sources' front run back entry source,
      advanceSources seen start stop key sources = (.error cause, sources') ∧
      runs = front ++ ((key, entry) :: run) :: back ∧
      List.Forall₂ (Offers files start stop) sources'
        (front.map (skip key) ++ ((key, entry) :: run) :: back) ∧
      source ∈ sources ∧ source.pending seen start stop = [.ok (key, entry), .error cause] := by
  induction offers with
  | nil => exact .inl ⟨[], rfl, .nil, nofun⟩
  | @cons source run sources runs offered later ih =>
      have ahead := ih fun other member => glimpses other (List.mem_cons_of_mem _ member)
      have own := glimpses source List.mem_cons_self
      rw [advanceSources]
      split
      · rename_i stands
        have isHead := offered.standsOn_iff.mp stands
        obtain ⟨entry, tail, rfl⟩ : ∃ entry tail, run = (key, entry) :: tail := by
          cases run with
          | nil => cases isHead
          | cons head tail =>
              obtain rfl : head.1 = key := Option.some.inj isHead
              exact ⟨head.2, tail, rfl⟩
        have skipped : skip key ((key, entry) :: tail) = tail := if_pos isHead
        rcases advance_seen offered own with
          ⟨source', moved, offers', fewer⟩ | ⟨cause, source', moved, offers', shown⟩
        · rw [moved]
          rcases ahead with ⟨sources', ran, rest, seen'⟩ |
            ⟨cause, sources', front, _, back, _, failing, ran, rfl, rest, member, shown⟩
          · rw [ran]
            refine .inl ⟨_, rfl, ?_, ?_⟩
            · rw [List.map_cons, skipped]
              exact .cons offers' rest
            · exact List.forall_mem_cons.mpr ⟨fun block inside => own block (fewer inside), seen'⟩
          · rw [ran]
            refine .inr ⟨cause, _, _ :: front, _, back, _, failing, rfl, rfl, ?_,
              List.mem_cons_of_mem _ member, shown⟩
            rw [List.map_cons, skipped]
            exact .cons offers' rest
        · rw [moved]
          exact .inr ⟨cause, _, [], tail, runs, entry, source, rfl, rfl, .cons offers' later,
            List.mem_cons_self, shown⟩
      · rename_i stands
        have skipped : skip key run = run :=
          if_neg fun isHead => stands (offered.standsOn_iff.mpr isHead)
        rcases ahead with ⟨sources', ran, rest, seen'⟩ |
          ⟨cause, sources', front, _, back, _, failing, ran, rfl, rest, member, shown⟩
        · rw [ran]
          refine .inl ⟨_, rfl, ?_, List.forall_mem_cons.mpr ⟨own, seen'⟩⟩
          rw [List.map_cons, skipped]
          exact .cons offered rest
        · rw [ran]
          refine .inr ⟨cause, _, run :: front, _, back, _, failing, rfl, rfl, ?_,
            List.mem_cons_of_mem _ member, shown⟩
          rw [List.map_cons, skipped]
          exact .cons offered rest

end Moving

/-! ## Calls -/

section Calls

open PeekSource

variable {files seen : UInt64 → Option Bytes} {newest : Key → Option Entry}
  {iterator : EngineIterator}

/-- In the view of a call, a source can only fail behind a tombstone, or behind the
value that is the newest of its key. -/
def Harmless (newest : Key → Option Entry) (seen : UInt64 → Option Bytes)
    (iterator : EngineIterator) : Prop :=
  ∀ source ∈ iterator.sources, ∀ items key value cause,
    source.pending seen iterator.start iterator.stop =
      items ++ [.ok (key, .value value), .error cause] →
    newest key = some (.value value)

/-- The sources offer sorted runs of keys ahead, and a value that the runs show as the
newest of its key is the newest one. -/
def Resumes (files : UInt64 → Option Bytes) (newest : Key → Option Entry) (Ahead : Key → Prop)
    (iterator : EngineIterator) : Prop :=
  ∃ runs, List.Forall₂ (Offers files iterator.start iterator.stop) iterator.sources runs ∧
    (∀ run ∈ runs, KeySorted run) ∧ (∀ run ∈ runs, ∀ pair ∈ run, Ahead pair.1) ∧
    ∀ key value, newestAt runs key = some (.value value) → newest key = some (.value value)

theorem skip_subset (key : Key) (run : List (Key × Entry)) : skip key run ⊆ run := by
  rw [skip]
  split
  · exact List.tail_subset run
  · exact List.Subset.refl _

/-- Behind a key that every run has consumed, the keys are larger. -/
theorem lt_of_skip {key : Key} {run : List (Key × Entry)} (sorted : KeySorted run)
    (atLeast : ∀ other, headKey run = some other → key ≤ other) {pair : Key × Entry}
    (member : pair ∈ skip key run) : key < pair.1 := by
  have inRun := skip_subset key run member
  refine lt_of_le_of_ne (le_of_headKey sorted atLeast pair inRun) fun same => ?_
  have found : valueAt (skip key run) pair.1 = some pair.2 :=
    (sorted_skip sorted key).valueAt_of_mem member
  rw [valueAt_skip sorted atLeast, if_pos same.symm] at found
  cases found

/-- The runs after a failed turn: those in front of the source that failed have
consumed the key, so its entry is the newest they show. -/
theorem newestAt_failed {key : Key} {entry : Entry} {run : List (Key × Entry)}
    {front back : List (List (Key × Entry))}
    (sorted : ∀ other ∈ front ++ ((key, entry) :: run) :: back, KeySorted other)
    (atLeast : ∀ other ∈ front ++ ((key, entry) :: run) :: back, ∀ head,
      headKey other = some head → key ≤ head) (wanted : Key) :
    newestAt (front.map (skip key) ++ ((key, entry) :: run) :: back) wanted =
      if wanted = key then some entry
      else newestAt (front ++ ((key, entry) :: run) :: back) wanted := by
  rw [newestAt_append, newestAt_append,
    newestAt_skip (fun other member => sorted other (List.mem_append_left _ member))
      (fun other member => atLeast other (List.mem_append_left _ member))]
  split
  · rename_i same
    rw [Option.none_or, newestAt, List.findSome?_cons, valueAt, if_pos same]
  · rfl

/-- Sources whose key was consumed still offer what the invariant asks for. -/
theorem Resumes.skip {Ahead : Key → Prop} {runs : List (List (Key × Entry))}
    {sources' : List PeekSource} {key : Key}
    (offers : List.Forall₂ (Offers files iterator.start iterator.stop) sources'
      (runs.map (skip key)))
    (sorted : ∀ run ∈ runs, KeySorted run)
    (atLeast : ∀ run ∈ runs, ∀ other, headKey run = some other → key ≤ other)
    (ahead : ∀ run ∈ runs, ∀ pair ∈ run, Ahead pair.1)
    (right : ∀ wanted value, newestAt runs wanted = some (.value value) →
      newest wanted = some (.value value)) :
    Resumes files newest (fun wanted => Ahead wanted ∧ key < wanted)
      { iterator with sources := sources' } := by
  refine ⟨_, offers, ?_, ?_, fun wanted value found => ?_⟩
  · intro run member
    obtain ⟨old, isRun, rfl⟩ := List.mem_map.mp member
    exact sorted_skip (sorted old isRun) key
  · intro run member pair inside
    obtain ⟨old, isRun, rfl⟩ := List.mem_map.mp member
    exact ⟨ahead old isRun pair (skip_subset key old inside),
      lt_of_skip (sorted old isRun) (atLeast old isRun) inside⟩
  · rw [newestAt_skip sorted atLeast] at found
    split at found
    · cases found
    · exact right wanted value found

theorem Resumes.imp {Ahead Ahead' : Key → Prop} (resumes : Resumes files newest Ahead iterator)
    (weaker : ∀ key, Ahead key → Ahead' key) : Resumes files newest Ahead' iterator := by
  obtain ⟨runs, offers, sorted, ahead, right⟩ := resumes
  exact ⟨runs, offers, sorted, fun run member pair inside =>
    weaker _ (ahead run member pair inside), right⟩

/-- What the view shows of a source that was moved, it showed before. -/
theorem harmless_of_advanced {iterator' : EngineIterator} {key : Key}
    (taken : TurnTaken seen iterator iterator' key) (harmless : Harmless newest seen iterator) :
    Harmless newest seen iterator' := by
  obtain ⟨sameStart, sameStop, _, advanced⟩ := taken
  intro source' member items held value cause shown
  rw [sameStart, sameStop] at shown
  obtain ⟨source, inSources, moved⟩ : ∃ source ∈ iterator.sources,
      Advanced seen iterator.start iterator.stop key source source' :=
    exists_related advanced.flip member
  rw [Advanced] at moved
  split at moved
  · rename_i stands
    obtain ⟨entry, isNext⟩ := PeekSource.standsOn_iff.mp stands
    refine harmless source inSources (.ok (key, entry) :: items) held value cause ?_
    rw [pending_of_next isNext, ← moved, shown, List.cons_append]
  · rw [moved] at shown
    exact harmless source inSources items held value cause shown

/-- **One turn of a call whose reads may fail.** -/
theorem turn_seen {Ahead : Key → Prop} (resumes : Resumes files newest Ahead iterator)
    (glimpses : Glimpses files seen iterator) (harmless : Harmless newest seen iterator) :
    match iterator.turn seen with
    | .done => True
    | .failed _ after => Resumes files newest Ahead after
    | .yielded pair after => newest pair.1 = some (.value pair.2) ∧ Ahead pair.1 ∧
        Resumes files newest (fun key => Ahead key ∧ pair.1 < key) after
    | .passed after => Resumes files newest Ahead after ∧ Glimpses files seen after := by
  obtain ⟨runs, offers, sorted, ahead, right⟩ := resumes
  rcases turn_eq seen iterator with
    ⟨turn, _⟩ | ⟨front, source, back, key, entry, split, stands, inFront, inBack, turn⟩
  · rw [turn]
    trivial
  · obtain ⟨atLeast, isNewest⟩ := newestAt_of_best offers sorted split stands inFront inBack
    rcases advanceSources_seen offers key glimpses with ⟨sources', ran, offers', glimpses'⟩ |
      ⟨cause, sources', before, run, behind, held, failing, ran, rfl, offers', member, shown⟩
    · have passed := Resumes.skip offers' sorted atLeast ahead right
      rw [turn, ran]
      cases entry with
      | value value =>
          have inRun : Ahead key := by
            obtain ⟨run, isRun, found⟩ := List.exists_of_findSome?_eq_some isNewest
            exact ahead run isRun _ (mem_of_valueAt found)
          exact ⟨right key value isNewest, inRun, passed⟩
      | tombstone => exact ⟨passed.imp fun _ => And.left, glimpses'⟩
    · rw [turn, ran]
      refine ⟨_, offers', ?_, ?_, fun wanted value found => ?_⟩
      · intro other inRuns
        rcases List.mem_append.mp inRuns with inFront | inBack
        · obtain ⟨old, isRun, rfl⟩ := List.mem_map.mp inFront
          exact sorted_skip (sorted old (List.mem_append_left _ isRun)) key
        · exact sorted other (List.mem_append_right _ inBack)
      · intro other inRuns pair inside
        rcases List.mem_append.mp inRuns with inFront | inBack
        · obtain ⟨old, isRun, rfl⟩ := List.mem_map.mp inFront
          exact ahead old (List.mem_append_left _ isRun) pair (skip_subset key old inside)
        · exact ahead other (List.mem_append_right _ inBack) pair inside
      · rw [newestAt_failed sorted atLeast] at found
        split at found
        · rename_i same
          cases found
          rw [same]
          exact harmless failing member [] key value cause shown
        · exact right wanted value found

/-- **One call whose reads may fail** keeps the invariant, and what it yields is right
and ahead. -/
theorem next_seen {Ahead : Key → Prop} (resumes : Resumes files newest Ahead iterator)
    (glimpses : Glimpses files seen iterator) (harmless : Harmless newest seen iterator) :
    match (iterator.next seen).1 with
    | some (.ok pair) => newest pair.1 = some (.value pair.2) ∧ Ahead pair.1 ∧
        Resumes files newest (fun key => Ahead key ∧ pair.1 < key) (iterator.next seen).2
    | _ => Resumes files newest Ahead (iterator.next seen).2 := by
  -- by the number of items left, which every turn makes smaller
  induction count : iterator.left seen using Nat.strong_induction_on generalizing iterator with
  | _ count ih =>
      have outcome := turn_seen resumes glimpses harmless
      rw [EngineIterator.next_eq]
      rcases turn_cases seen iterator with
        ⟨turn, _⟩ | ⟨cause, after, turn⟩ | ⟨key, value, after, turn, _⟩ | ⟨key, after, turn, taken⟩
      all_goals rw [turn] at outcome ⊢
      · exact resumes
      · exact outcome
      · exact outcome
      · exact ih _ (count ▸ taken.left_lt) outcome.1 outcome.2
          (harmless_of_advanced taken harmless) rfl

/-- All calls, each with its own view of the files. -/
theorem yielded_callsSeeing {Ahead : Key → Prop} {views : List (UInt64 → Option Bytes)}
    (resumes : Resumes files newest Ahead iterator)
    (glimpses : iterator.EachCall (Glimpses files) views)
    (harmless : iterator.EachCall (Harmless newest) views) :
    KeySorted (yielded (iterator.callsSeeing views)) ∧
      ∀ pair ∈ yielded (iterator.callsSeeing views),
        newest pair.1 = some (.value pair.2) ∧ Ahead pair.1 := by
  induction views generalizing iterator Ahead with
  | nil => exact ⟨List.Pairwise.nil, nofun⟩
  | cons seen views ih =>
      have called := next_seen resumes glimpses.1 harmless.1
      rw [EngineIterator.callsSeeing, yielded, List.filterMap_cons]
      rcases outcome : (iterator.next seen).1 with _ | cause | pair
      all_goals rw [outcome] at called
      · exact ih called glimpses.2 harmless.2
      · exact ih called glimpses.2 harmless.2
      · obtain ⟨right, ahead, later⟩ := called
        obtain ⟨sorted, rest⟩ := ih later glimpses.2 harmless.2
        refine ⟨List.pairwise_cons.mpr ⟨fun other member => (rest other member).2.2, sorted⟩,
          List.forall_mem_cons.mpr ⟨⟨right, ahead⟩, fun other member => ?_⟩⟩
        exact ⟨(rest other member).1, (rest other member).2.1⟩

/-- Reads that do not fail are harmless. -/
theorem harmless_of_offers {runs : List (List (Key × Entry))}
    (offers : List.Forall₂ (Offers seen iterator.start iterator.stop) iterator.sources runs) :
    Harmless newest seen iterator := by
  intro source member items key value cause shown
  obtain ⟨run, _, offered⟩ := exists_related offers member
  have failed : Except.error cause ∈ run.map Except.ok := by
    rw [← show _ = run.map Except.ok from offered, shown]
    simp
  obtain ⟨_, _, impossible⟩ := List.mem_map.mp failed
  cases impossible

/-- **A scan that goes on after failed reads.**  For sources that offer strictly sorted
runs and any calls of `next`, each with its own failing reads: if a read only fails
for a source whose item is a tombstone or the newest value of its key, every pair ever
yielded is the newest value of its key when the scan was opened, and the keys are
strictly increasing. -/
theorem scan_goes_on_after_errors {runs : List (List (Key × Entry))}
    {views : List (UInt64 → Option Bytes)}
    (offers : List.Forall₂ (Offers files iterator.start iterator.stop) iterator.sources runs)
    (sorted : ∀ run ∈ runs, KeySorted run)
    (glimpses : iterator.EachCall (Glimpses files) views)
    (harmless : iterator.EachCall (Harmless (newestAt runs)) views) :
    KeySorted (yielded (iterator.callsSeeing views)) ∧
      ∀ pair ∈ yielded (iterator.callsSeeing views),
        newestAt runs pair.1 = some (.value pair.2) := by
  have resumes : Resumes files (newestAt runs) (fun _ => True) iterator :=
    ⟨runs, offers, sorted, fun _ _ _ _ => trivial, fun _ _ found => found⟩
  obtain ⟨increasing, right⟩ := yielded_callsSeeing resumes glimpses harmless
  exact ⟨increasing, fun pair member => (right pair member).1⟩

/-- No file can be opened. -/
def unreadable : UInt64 → Option Bytes := fun _ => none

/-- The source of the two-block table, on its first entry and with the second block to read. -/
def halfRead : EngineIterator :=
  ⟨[⟨some ([97], .value [49]), .table 1 ⟨layeredParts.handle.index.tail, []⟩⟩],
    .unbounded, .unbounded⟩

/-- The read of the second block fails once; the next call yields the first entry. -/
theorem scan_goes_on_after_one_error :
    yielded (halfRead.callsSeeing [unreadable, layeredDb.disk.sst]) = [([97], [49])] ∧
      newestAt [layeredEntries] [97] = some (.value [49]) := by
  have offers : List.Forall₂ (Offers layeredDb.disk.sst halfRead.start halfRead.stop)
      halfRead.sources [layeredEntries] := by
    refine .cons (?_ : PeekSource.pending _ _ _ _ = _) .nil
    decide +kernel
  have sorted : ∀ run ∈ [layeredEntries], KeySorted run := by decide
  have harmless : Harmless (newestAt [layeredEntries]) unreadable halfRead := by
    intro source member items key value cause shown
    have pending : source.pending unreadable halfRead.start halfRead.stop =
        [.ok ([97], .value [49]), .error (.io "no such file")] := by
      rw [List.mem_singleton.mp member]
      decide +kernel
    rw [pending, show [_, _] = [] ++ [_, _] from rfl] at shown
    cases (List.append_inj_right' shown rfl)
    rfl
  have glimpses : Glimpses layeredDb.disk.sst unreadable halfRead :=
    fun _ _ _ _ => .inr ⟨_, rfl⟩
  have failed : (halfRead.next unreadable).1 = some (.error (.io "no such file")) := by
    decide +kernel
  -- after the failed call the source still offers both entries
  have harmless' : Harmless (newestAt [layeredEntries]) layeredDb.disk.sst
      (halfRead.next unreadable).2 := by
    have resumes : Resumes layeredDb.disk.sst (newestAt [layeredEntries]) (fun _ => True) halfRead :=
      ⟨_, offers, sorted, fun _ _ _ _ => trivial, fun _ _ found => found⟩
    have called := next_seen resumes glimpses harmless
    rw [failed] at called
    obtain ⟨_, offers', _⟩ := called
    exact harmless_of_offers offers'
  have right := (scan_goes_on_after_errors offers sorted
    (show halfRead.EachCall _ [unreadable, layeredDb.disk.sst] from
      ⟨glimpses, fun _ _ _ _ => .inl rfl, trivial⟩)
    ⟨harmless, harmless', trivial⟩).2
  have found : yielded (halfRead.callsSeeing [unreadable, layeredDb.disk.sst]) = [([97], [49])] := by
    decide +kernel
  rw [found] at right
  exact ⟨found, right _ (List.mem_singleton_self _)⟩

end Calls

/-! ## A deleted key comes back -/

section Revived

/-- The first key of the two-block table is deleted in the memtable. -/
def revivedDb : Db (byteTables smallSizing) :=
  { layeredDb with engine := { layeredDb.engine with memtable := MemTable.new.delete [97] } }

theorem revivedDb_scannable : Scannable revivedDb :=
  { layeredDb_scannable with memtable := by decide }

/-- What a scan of everything yields when the calls have the given views. -/
def scanSeeing (views : List (UInt64 → Option Bytes)) (db : Db (byteTables smallSizing)) :
    List (Key × Bytes) :=
  match scan .unbounded .unbounded db with
  | .ok iterator _ => yielded (iterator.callsSeeing views)
  | .error _ _ => []

/-- The read of the second block fails once, behind the deleted key: the next call
yields the deleted key with its old value. -/
theorem scan_revives_deleted_key :
    ∃ iterator runs, scan .unbounded .unbounded revivedDb = .ok iterator revivedDb ∧
      List.Forall₂ (PeekSource.Offers revivedDb.disk.sst iterator.start iterator.stop)
        iterator.sources runs ∧
      (∀ run ∈ runs, KeySorted run) ∧
      iterator.EachCall (Glimpses revivedDb.disk.sst) [unreadable, revivedDb.disk.sst] ∧
      ([97], [49]) ∈ yielded (iterator.callsSeeing [unreadable, revivedDb.disk.sst]) ∧
      visible (newestAt runs [97]) = none := by
  have read : AllRead revivedDb.disk.sst revivedDb.engine.version.tablesNewestFirst :=
    allRead_of_held layeredTable_held
  obtain ⟨iterator, pairs, opened, drained⟩ :=
    exists_drains revivedDb_scannable .unbounded .unbounded read
  obtain ⟨runs, offers⟩ := offers_of_drains drained
  obtain ⟨isStart, isStop, sources, isSources, tables⟩ := opened_of_scan opened
  have layers := layers_of_offers revivedDb_scannable tables (isSources ▸ isStart ▸ isStop ▸ offers)
  have found : scanSeeing [unreadable, revivedDb.disk.sst] revivedDb = [([97], [49])] := by
    decide +kernel
  rw [scanSeeing, opened] at found
  refine ⟨iterator, runs, opened, offers, fun run member => (layers.1 run member).sorted,
    ⟨fun _ _ _ _ => .inr ⟨_, rfl⟩, fun _ _ _ _ => .inl rfl, trivial⟩, ?_, ?_⟩
  · change yielded _ = _ at found
    exact found ▸ List.mem_singleton_self _
  · have got : revivedDb.eval (get [97]) = .ok none := rfl
    rw [layers.2 [97] rfl rfl] at got
    exact Except.ok.inj got

end Revived

end LsmStore
