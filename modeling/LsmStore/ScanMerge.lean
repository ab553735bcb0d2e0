import LsmStore.Scan

/-!
# What draining a scan yields

A source offers a run when its pending items are the pairs of the run and no
read of it fails.  As long as every source offers a run, a turn takes the
smallest key off the runs and looks at the entry of the first run that holds it
(`turn_of_runs`), so draining the iterator yields the newest values of the runs
in key order (`drains_of_runs`).  Conversely, an iterator that was drained
without an error had sources that offered runs (`offers_of_drains`).

Every turn consumes a pending item, so a call of `next` always returns
(`EngineIterator.next_eq`).
-/

set_option autoImplicit false

namespace LsmStore

open Foundation

/-! ## Moving a source -/

section Sources

variable {file : Option Bytes} {files : UInt64 → Option Bytes} {start stop : Bound}

/-- The loop returns the first item of the window, if there is one. -/
theorem nextInRangeLoop_cases {fuel : Nat} {iterator : TableIterator}
    (enough : (iterator.items file).length < fuel) :
    (∃ iterator', nextInRangeLoop file start stop fuel iterator = (.ok none, iterator') ∧
      window start stop (iterator.items file) = []) ∨
    (∃ cause iterator', nextInRangeLoop file start stop fuel iterator = (.error cause, iterator') ∧
      window start stop (iterator.items file) = [.error cause]) ∨
    ∃ pair iterator', nextInRangeLoop file start stop fuel iterator = (.ok (some pair), iterator') ∧
      window start stop (iterator.items file) =
        .ok pair :: window start stop (iterator'.items file) := by
  induction fuel generalizing iterator with
  | zero => exact absurd enough (Nat.not_lt_zero _)
  | succ fuel ih =>
      obtain ⟨remaining, current⟩ := iterator
      have split : TableIterator.next file ⟨remaining, current⟩ =
        ((TableIterator.nextFrom file remaining current).1,
          (TableIterator.nextFrom file remaining current).2) := rfl
      rw [nextInRangeLoop, split]
      rcases TableIterator.nextFrom_cases file remaining current with
        ⟨items, found⟩ | ⟨cause, items, found⟩ | ⟨pair, items, found⟩
      · rw [found, items]
        exact .inl ⟨_, rfl, rfl⟩
      · rw [found, items]
        exact .inr (.inl ⟨cause, _, rfl, rfl⟩)
      · rw [items, List.length_cons] at enough
        rw [found, items, window]
        dsimp only
        split_ifs with within past
        · exact .inr (.inr ⟨pair, _, rfl, rfl⟩)
        · exact .inl ⟨_, rfl, rfl⟩
        · exact ih (by omega)

namespace PeekSource

theorem pending_of_next {source : PeekSource} {item : Key × Entry}
    (stands : source.next = some item) :
    source.pending files start stop = .ok item :: source.rest.pending files start stop := by
  rw [pending, stands]

theorem standsOn_iff {source : PeekSource} {key : Key} :
    source.standsOn key = true ↔ ∃ entry, source.next = some (key, entry) := by
  rw [standsOn, Option.any_eq_true]
  constructor
  · rintro ⟨⟨held, entry⟩, stands, same⟩
    obtain rfl := of_decide_eq_true same
    exact ⟨entry, stands⟩
  · rintro ⟨entry, stands⟩
    exact ⟨_, stands, decide_eq_true rfl⟩

/-- Advancing a source leaves the pending items behind the one it stood on, or
fails with the first of them. -/
theorem advance_cases (source : PeekSource) :
    (∃ source', source.advance files start stop = (.ok (), source') ∧
      source'.pending files start stop = source.rest.pending files start stop) ∨
    ∃ cause source', source.advance files start stop = (.error cause, source') ∧
      source.rest.pending files start stop = [.error cause] := by
  obtain ⟨stands, rest⟩ := source
  cases rest with
  | vec items =>
      refine .inl ⟨_, rfl, ?_⟩
      cases items <;> rfl
  | table id iterator =>
      rw [advance]
      dsimp only [nextInRange, SourceRest.pending]
      rcases nextInRangeLoop_cases (Nat.lt_succ_self (iterator.items (files id)).length) with
        ⟨iterator', moved, items⟩ | ⟨cause, iterator', moved, items⟩ | ⟨pair, iterator', moved, items⟩
      · rw [moved, items]
        exact .inl ⟨_, rfl, rfl⟩
      · rw [moved, items]
        exact .inr ⟨cause, _, rfl, rfl⟩
      · rw [moved, items]
        exact .inl ⟨_, rfl, rfl⟩

/-- A source after a turn that consumed a key. -/
def Advanced (files : UInt64 → Option Bytes) (start stop : Bound) (key : Key)
    (source source' : PeekSource) : Prop :=
  if source.standsOn key then
    source'.pending files start stop = source.rest.pending files start stop
  else source' = source

theorem Advanced.length_le {key : Key} {source source' : PeekSource}
    (advanced : Advanced files start stop key source source') :
    (source'.pending files start stop).length ≤ (source.pending files start stop).length := by
  rw [Advanced] at advanced
  split at advanced
  · rename_i stands
    obtain ⟨entry, isNext⟩ := standsOn_iff.mp stands
    rw [advanced, pending_of_next isNext, List.length_cons]
    exact Nat.le_succ _
  · rw [advanced]

theorem Advanced.length_lt {key : Key} {source source' : PeekSource}
    (advanced : Advanced files start stop key source source') (stands : source.standsOn key = true) :
    (source'.pending files start stop).length < (source.pending files start stop).length := by
  rw [Advanced, if_pos stands] at advanced
  obtain ⟨entry, isNext⟩ := standsOn_iff.mp stands
  rw [advanced, pending_of_next isNext, List.length_cons]
  exact Nat.lt_succ_self _

/-- The source has the pairs of a run to offer, and no read of it fails. -/
def Offers (files : UInt64 → Option Bytes) (start stop : Bound) (source : PeekSource)
    (run : List (Key × Entry)) : Prop :=
  source.pending files start stop = run.map .ok

theorem Offers.next_eq {source : PeekSource} {run : List (Key × Entry)}
    (offers : Offers files start stop source run) : source.next = run.head? := by
  have offered : source.pending files start stop = run.map .ok := offers
  cases isNext : source.next with
  | none =>
      rw [pending, isNext] at offered
      rw [List.map_eq_nil_iff.mp offered.symm]
      rfl
  | some item =>
      rw [pending_of_next isNext] at offered
      cases run with
      | nil => cases offered
      | cons head rest => rw [Except.ok.inj (List.cons.inj offered).1, List.head?_cons]

theorem Offers.standsOn_iff {source : PeekSource} {run : List (Key × Entry)}
    (offers : Offers files start stop source run) {key : Key} :
    source.standsOn key = true ↔ headKey run = some key := by
  rw [standsOn, offers.next_eq, headKey]
  cases run <;> simp

/-- Behind the item it stands on, the source has the tail of the run. -/
theorem Offers.rest_eq {source : PeekSource} {run : List (Key × Entry)} {key : Key}
    (offers : Offers files start stop source run) (stands : source.standsOn key = true) :
    source.rest.pending files start stop = run.tail.map .ok := by
  obtain ⟨entry, isNext⟩ := PeekSource.standsOn_iff.mp stands
  rw [Offers, pending_of_next isNext] at offers
  cases run with
  | nil => cases offers
  | cons head rest => exact (List.cons.inj offers).2

/-- What a source offers after a turn, it offered before, behind the key. -/
theorem Advanced.offers {key : Key} {source source' : PeekSource} {run : List (Key × Entry)}
    (advanced : Advanced files start stop key source source')
    (offers : Offers files start stop source' run) :
    ∃ run', Offers files start stop source run' := by
  rw [Advanced] at advanced
  split at advanced
  · rename_i stands
    obtain ⟨entry, isNext⟩ := PeekSource.standsOn_iff.mp stands
    refine ⟨(key, entry) :: run, ?_⟩
    rw [Offers, pending_of_next isNext, ← advanced, offers]
    rfl
  · rw [advanced] at offers
    exact ⟨run, offers⟩

end PeekSource

open PeekSource

/-- A turn that does not fail has advanced every source on the key. -/
theorem advanced_of_advanceSources {key : Key} {sources sources' : List PeekSource}
    (ran : advanceSources files start stop key sources = (.ok (), sources')) :
    List.Forall₂ (Advanced files start stop key) sources sources' := by
  induction sources generalizing sources' with
  | nil =>
      cases ran
      exact .nil
  | cons source rest ih =>
      rw [advanceSources] at ran
      cases after : advanceSources files start stop key rest with
      | mk outcome rest' =>
          rw [after] at ran ih
          split at ran
          · rename_i stands
            rcases @advance_cases files start stop source with
              ⟨source', moved, pending⟩ | ⟨cause, source', moved, _⟩
            · rw [moved] at ran
              cases ran
              exact .cons (by rw [Advanced, if_pos stands]; exact pending) (ih rfl)
            · rw [moved] at ran
              cases ran
          · rename_i stands
            cases ran
            exact .cons (by rw [Advanced, if_neg stands]) (ih rfl)

/-- Sources whose reads do not fail are advanced past the key. -/
theorem advanceSources_of_offers {sources : List PeekSource} {runs : List (List (Key × Entry))}
    (offers : List.Forall₂ (Offers files start stop) sources runs) (key : Key) :
    ∃ sources', advanceSources files start stop key sources = (.ok (), sources') ∧
      List.Forall₂ (Offers files start stop) sources' (runs.map (skip key)) := by
  induction offers with
  | nil => exact ⟨[], rfl, .nil⟩
  | @cons source run sources runs offered _ ih =>
      obtain ⟨sources', ran, offers'⟩ := ih
      rw [advanceSources, ran, List.map_cons]
      split
      · rename_i stands
        have rest := offered.rest_eq stands
        rcases @advance_cases files start stop source with
          ⟨source', moved, pending⟩ | ⟨cause, source', _, failed⟩
        · refine ⟨source' :: sources', by rw [moved], .cons ?_ offers'⟩
          rw [skip, if_pos (offered.standsOn_iff.mp stands), Offers, pending, rest]
        · rw [failed] at rest
          cases run with
          | nil => cases rest
          | cons head tail => cases tail <;> cases rest
      · rename_i stands
        refine ⟨source :: sources', rfl, .cons ?_ offers'⟩
        rw [skip, if_neg fun isHead => stands (offered.standsOn_iff.mpr isHead)]
        exact offered

/-! ## The smallest key -/

/-- The best source of a list: none if no source stands on an item, else the first
of those that stand on the smallest key. -/
def IsBest (sources : List PeekSource) : Option (Nat × Key) → Prop
  | none => ∀ source ∈ sources, source.next = none
  | some (index, key) => ∃ front source back entry, sources = front ++ source :: back ∧
      front.length = index ∧ source.next = some (key, entry) ∧
      (∀ other ∈ front, ∀ item ∈ other.next, key < item.1) ∧
      ∀ other ∈ back, ∀ item ∈ other.next, key ≤ item.1

theorem isBest_bestFrom {before rest : List PeekSource} {best : Option (Nat × Key)}
    (isBest : IsBest before best) :
    IsBest (before ++ rest) (bestFrom before.length rest best) := by
  induction rest generalizing before best with
  | nil => rwa [List.append_nil]
  | cons source rest ih =>
      -- one source more has been looked at
      have step := fun {best'} (isBest' : IsBest (before ++ [source]) best') => ih isBest'
      rw [List.append_assoc, List.singleton_append, List.length_append, List.length_singleton]
        at step
      rw [bestFrom]
      apply step
      cases isNext : source.next with
      | none =>
          cases best with
          | none =>
              intro other member
              rcases List.mem_append.mp member with inBefore | last
              · exact isBest other inBefore
              · rw [List.mem_singleton.mp last, isNext]
          | some held =>
              obtain ⟨front, winner, back, entry, rfl, index, stands, inFront, inBack⟩ := isBest
              refine ⟨front, winner, back ++ [source], entry, by simp, index, stands, inFront, ?_⟩
              intro other member item isItem
              rcases List.mem_append.mp member with inside | last
              · exact inBack other inside item isItem
              · rw [List.mem_singleton.mp last, isNext] at isItem
                cases isItem
      | some item =>
          cases best with
          | none =>
              refine ⟨before, source, [], item.2, rfl, rfl, isNext, ?_, nofun⟩
              intro other member item' isItem
              rw [isBest other member] at isItem
              cases isItem
          | some held =>
              obtain ⟨front, winner, back, entry, rfl, index, stands, inFront, inBack⟩ := isBest
              dsimp only
              split_ifs with smaller
              · refine ⟨_, source, [], item.2, rfl, rfl, isNext, ?_, nofun⟩
                intro other member item' isItem
                rcases List.mem_append.mp member with inside | behind
                · exact lt_trans smaller (inFront other inside item' isItem)
                · rcases List.mem_cons.mp behind with rfl | later
                  · rw [stands] at isItem
                    cases isItem
                    exact smaller
                  · exact lt_of_lt_of_le smaller (inBack other later item' isItem)
              · refine ⟨front, winner, back ++ [source], entry, by simp, index, stands, inFront, ?_⟩
                intro other member item' isItem
                rcases List.mem_append.mp member with inside | last
                · exact inBack other inside item' isItem
                · rw [List.mem_singleton.mp last, isNext] at isItem
                  cases isItem
                  exact not_lt.mp smaller

theorem isBest_best (sources : List PeekSource) : IsBest sources (bestFrom 0 sources none) :=
  @isBest_bestFrom [] sources none nofun

/-- What is in the first of two related lists is related to something in the second. -/
theorem exists_related {α β : Type} {Related : α → β → Prop} {left : List α} {right : List β}
    (related : List.Forall₂ Related left right) {first : α} (member : first ∈ left) :
    ∃ second ∈ right, Related first second := by
  induction related with
  | nil => cases member
  | @cons _ head _ _ isRelated _ ih =>
      rcases List.mem_cons.mp member with rfl | later
      · exact ⟨head, List.mem_cons_self, isRelated⟩
      · obtain ⟨second, inRest, found⟩ := ih later
        exact ⟨second, List.mem_cons_of_mem _ inRest, found⟩

/-- The newest entry of a smallest key is offered by the first source that stands on it. -/
theorem newestAt_of_offers {sources : List PeekSource} {runs : List (List (Key × Entry))}
    (offers : List.Forall₂ (Offers files start stop) sources runs)
    (sorted : ∀ run ∈ runs, KeySorted run) {key : Key}
    (atLeast : ∀ run ∈ runs, ∀ other, headKey run = some other → key ≤ other) :
    newestAt runs key = sources.findSome? fun source => (Cursor.mk source.next []).offers key := by
  induction offers with
  | nil => rfl
  | @cons source run _ _ offered _ ih =>
      have held := offers_cursorOf (sorted run List.mem_cons_self) (atLeast run List.mem_cons_self)
      have same : (Cursor.mk source.next []).offers key = valueAt run key := by
        rw [← held, offered.next_eq]
        cases run <;> rfl
      have rest := ih (fun later member => sorted later (List.mem_cons_of_mem _ member))
        (fun later member => atLeast later (List.mem_cons_of_mem _ member))
      rw [newestAt] at rest ⊢
      rw [List.findSome?_cons, List.findSome?_cons, same, rest]

end Sources

/-! ## Turns -/

section Turns

open PeekSource

variable {files : UInt64 → Option Bytes} {iterator iterator' : EngineIterator}

/-- What the sources went through in a turn that did not fail. -/
structure TurnTaken (files : UInt64 → Option Bytes) (iterator iterator' : EngineIterator)
    (key : Key) : Prop where
  sameStart : iterator'.start = iterator.start
  sameStop : iterator'.stop = iterator.stop
  stands : ∃ source ∈ iterator.sources, source.standsOn key = true
  advanced : List.Forall₂ (Advanced files iterator.start iterator.stop key) iterator.sources
    iterator'.sources

/-- A turn ends the iteration, or advances the sources on the smallest key and then
looks at the entry of the first of them. -/
theorem turn_eq (files : UInt64 → Option Bytes) (iterator : EngineIterator) :
    (iterator.turn files = .done ∧ ∀ source ∈ iterator.sources, source.next = none) ∨
    ∃ front source back key entry, iterator.sources = front ++ source :: back ∧
      source.next = some (key, entry) ∧
      (∀ other ∈ front, ∀ item ∈ other.next, key < item.1) ∧
      (∀ other ∈ back, ∀ item ∈ other.next, key ≤ item.1) ∧
      iterator.turn files =
        match advanceSources files iterator.start iterator.stop key iterator.sources, entry with
        | (.error cause, sources), _ => .failed cause { iterator with sources }
        | (.ok (), sources), .value value => .yielded (key, value) { iterator with sources }
        | (.ok (), sources), .tombstone => .passed { iterator with sources } := by
  have isBest := isBest_best iterator.sources
  rw [EngineIterator.turn]
  cases best : bestFrom 0 iterator.sources none with
  | none =>
      rw [best] at isBest
      exact .inl ⟨rfl, isBest⟩
  | some found =>
      obtain ⟨index, key⟩ := found
      rw [best] at isBest
      obtain ⟨front, source, back, entry, split, rfl, stands, inFront, inBack⟩ := isBest
      have winner : iterator.sources[front.length]?.bind PeekSource.next = some (key, entry) := by
        rw [split, List.getElem?_append_right (le_refl _), Nat.sub_self]
        exact stands
      refine .inr ⟨front, source, back, key, entry, split, stands, inFront, inBack, ?_⟩
      dsimp only
      rw [winner]
      cases advanceSources files iterator.start iterator.stop key iterator.sources with
      | mk outcome sources => cases outcome <;> cases entry <;> rfl

/-- A turn ends the iteration, fails, yields a pair or passes over a tombstone. -/
theorem turn_cases (files : UInt64 → Option Bytes) (iterator : EngineIterator) :
    (iterator.turn files = .done ∧ ∀ source ∈ iterator.sources, source.next = none) ∨
    (∃ cause iterator', iterator.turn files = .failed cause iterator') ∨
    (∃ key value iterator', iterator.turn files = .yielded (key, value) iterator' ∧
      TurnTaken files iterator iterator' key) ∨
    ∃ key iterator', iterator.turn files = .passed iterator' ∧
      TurnTaken files iterator iterator' key := by
  rcases turn_eq files iterator with finished | ⟨front, source, back, key, entry, split, stands, _, _, turn⟩
  · exact .inl finished
  · have standing : ∃ source ∈ iterator.sources, source.standsOn key = true :=
      ⟨source, by rw [split]; simp, PeekSource.standsOn_iff.mpr ⟨entry, stands⟩⟩
    rw [turn]
    cases ran : advanceSources files iterator.start iterator.stop key iterator.sources with
    | mk outcome sources =>
        cases outcome with
        | error cause => exact .inr (.inl ⟨cause, _, rfl⟩)
        | ok done =>
            have taken : TurnTaken files iterator { iterator with sources } key :=
              ⟨rfl, rfl, standing, advanced_of_advanceSources ran⟩
            cases entry with
            | value value => exact .inr (.inr (.inl ⟨key, value, _, rfl, taken⟩))
            | tombstone => exact .inr (.inr (.inr ⟨key, _, rfl, taken⟩))

/-- A turn that does not fail consumes an item. -/
theorem TurnTaken.left_lt {key : Key} (taken : TurnTaken files iterator iterator' key) :
    iterator'.left files < iterator.left files := by
  obtain ⟨sameStart, sameStop, ⟨source, member, stands⟩, advanced⟩ := taken
  rw [EngineIterator.left, EngineIterator.left, sameStart, sameStop]
  generalize iterator.sources = sources at member advanced
  generalize iterator'.sources = sources' at advanced
  induction advanced with
  | nil => cases member
  | @cons first first' rest rest' moved later ih =>
      rw [List.map_cons, List.map_cons, List.sum_cons, List.sum_cons]
      rcases List.mem_cons.mp member with rfl | inRest
      · refine Nat.add_lt_add_of_lt_of_le (moved.length_lt stands) ?_
        clear ih member
        induction later with
        | nil => exact le_refl _
        | cons moved _ ih => exact Nat.add_le_add moved.length_le ih
      · exact Nat.add_lt_add_of_le_of_lt moved.length_le (ih inRest)

/-- More fuel than items left makes no difference. -/
theorem nextLoop_eq {fuel fuel' : Nat} (enough : iterator.left files < fuel)
    (enough' : iterator.left files < fuel') :
    iterator.nextLoop files fuel = iterator.nextLoop files fuel' := by
  induction fuel generalizing fuel' iterator with
  | zero => exact absurd enough (Nat.not_lt_zero _)
  | succ fuel ih =>
      cases fuel' with
      | zero => exact absurd enough' (Nat.not_lt_zero _)
      | succ fuel' =>
          rw [EngineIterator.nextLoop, EngineIterator.nextLoop]
          rcases turn_cases files iterator with
            ⟨turn, _⟩ | ⟨cause, after, turn⟩ | ⟨key, value, after, turn, _⟩ | ⟨key, after, turn, taken⟩
          all_goals rw [turn]
          have fewer := taken.left_lt
          exact ih (by omega) (by omega)

/-- **A call of `next` takes turns until one does not pass.** -/
theorem EngineIterator.next_eq (files : UInt64 → Option Bytes) (iterator : EngineIterator) :
    iterator.next files =
      match iterator.turn files with
      | .done => (none, iterator)
      | .failed cause iterator => (some (.error cause), iterator)
      | .yielded pair iterator => (some (.ok pair), iterator)
      | .passed iterator => iterator.next files := by
  rw [EngineIterator.next, EngineIterator.nextLoop]
  rcases turn_cases files iterator with
    ⟨turn, _⟩ | ⟨cause, after, turn⟩ | ⟨key, value, after, turn, _⟩ | ⟨key, after, turn, taken⟩
  all_goals rw [turn]
  exact nextLoop_eq taken.left_lt (Nat.lt_succ_self _)

/-- Draining an iterator is draining it from its next turn on. -/
theorem drains_iff (files : UInt64 → Option Bytes) (iterator : EngineIterator)
    (pairs : List (Key × Bytes)) :
    iterator.Drains files pairs ↔
      match iterator.turn files with
      | .done => pairs = []
      | .failed _ _ => False
      | .yielded pair iterator' => ∃ rest, pairs = pair :: rest ∧ iterator'.Drains files rest
      | .passed iterator' => iterator'.Drains files pairs := by
  have isNext := iterator.next_eq files
  cases pairs with
  | nil =>
      rw [EngineIterator.Drains, isNext]
      cases iterator.turn files <;> simp [EngineIterator.Drains]
  | cons pair rest =>
      rw [EngineIterator.Drains, isNext]
      cases iterator.turn files <;> simp [EngineIterator.Drains, and_comm, eq_comm]

/-- An iterator that was drained had no failing read ahead. -/
theorem offers_of_drains {pairs : List (Key × Bytes)} (drained : iterator.Drains files pairs) :
    ∃ runs, List.Forall₂ (Offers files iterator.start iterator.stop) iterator.sources runs := by
  -- by the number of items left, which every turn makes smaller
  induction count : iterator.left files using Nat.strong_induction_on generalizing iterator pairs with
  | _ count ih =>
      have backwards : ∀ {key iterator' pairs'}, TurnTaken files iterator iterator' key →
          iterator'.Drains files pairs' →
          ∃ runs, List.Forall₂ (Offers files iterator.start iterator.stop) iterator.sources runs := by
        intro key iterator' pairs' taken drained'
        obtain ⟨runs, offers⟩ := ih _ (count ▸ taken.left_lt) drained' rfl
        obtain ⟨sameStart, sameStop, _, advanced⟩ := taken
        rw [sameStart, sameStop] at offers
        clear ih drained' drained count
        generalize iterator.sources = sources at advanced
        generalize iterator'.sources = sources' at advanced offers
        induction advanced generalizing runs with
        | nil => exact ⟨[], .nil⟩
        | cons moved _ ih =>
            cases offers with
            | cons offered later =>
                obtain ⟨run, offers⟩ := moved.offers offered
                obtain ⟨runs, rest⟩ := ih _ later
                exact ⟨run :: runs, .cons offers rest⟩
      rw [drains_iff] at drained
      rcases turn_cases files iterator with
        ⟨turn, finished⟩ | ⟨cause, after, turn⟩ | ⟨key, value, after, turn, taken⟩ |
          ⟨key, after, turn, taken⟩
      · refine ⟨iterator.sources.map fun _ => [], ?_⟩
        rw [List.forall₂_map_right_iff, List.forall₂_same]
        intro source member
        rw [Offers, PeekSource.pending, finished source member]
        rfl
      · rw [turn] at drained
        cases drained
      · rw [turn] at drained
        obtain ⟨rest, _, drained'⟩ := drained
        exact backwards taken drained'
      · rw [turn] at drained
        exact backwards taken drained

/-- The first source on the smallest key stands on the newest entry that the runs
hold for it. -/
theorem newestAt_of_best {start stop : Bound} {sources front back : List PeekSource}
    {runs : List (List (Key × Entry))}
    (offers : List.Forall₂ (Offers files start stop) sources runs)
    (sorted : ∀ run ∈ runs, KeySorted run) {source : PeekSource} {key : Key} {entry : Entry}
    (split : sources = front ++ source :: back) (stands : source.next = some (key, entry))
    (inFront : ∀ other ∈ front, ∀ item ∈ other.next, key < item.1)
    (inBack : ∀ other ∈ back, ∀ item ∈ other.next, key ≤ item.1) :
    (∀ run ∈ runs, ∀ other, headKey run = some other → key ≤ other) ∧
      newestAt runs key = some entry := by
  have atLeast : ∀ run ∈ runs, ∀ other, headKey run = some other → key ≤ other := by
    intro run member other isHead
    obtain ⟨offering, inSources, offered⟩ := exists_related offers.flip member
    rw [headKey, ← Offers.next_eq offered] at isHead
    obtain ⟨item, isNext, rfl⟩ := Option.map_eq_some_iff.mp isHead
    rw [split] at inSources
    rcases List.mem_append.mp inSources with before | behind
    · exact le_of_lt (inFront offering before item isNext)
    · rcases List.mem_cons.mp behind with rfl | later
      · rw [stands] at isNext
        cases isNext
        exact le_refl _
      · exact inBack offering later item isNext
  have none : front.findSome? (fun source => (Cursor.mk source.next []).offers key) = none := by
    refine List.findSome?_eq_none_iff.mpr fun other member => ?_
    rw [Cursor.offers]
    split
    · rename_i held entry isNext
      exact if_neg (ne_of_gt (inFront other member (held, entry) isNext))
    · rfl
  refine ⟨atLeast, ?_⟩
  rw [newestAt_of_offers offers sorted atLeast, split, List.findSome?_append, none,
    Option.none_or, List.findSome?_cons, stands]
  simp [Cursor.offers]

/-- **A turn takes the smallest key off the runs**, with the entry of the first run
that holds it. -/
theorem turn_of_runs {runs : List (List (Key × Entry))}
    (offers : List.Forall₂ (Offers files iterator.start iterator.stop) iterator.sources runs)
    (sorted : ∀ run ∈ runs, KeySorted run) :
    (iterator.turn files = .done ∧ ∀ run ∈ runs, run = []) ∨
    ∃ key entry sources',
      (∀ run ∈ runs, ∀ other, headKey run = some other → key ≤ other) ∧
      newestAt runs key = some entry ∧
      List.Forall₂ (Offers files iterator.start iterator.stop) sources' (runs.map (skip key)) ∧
      iterator.turn files =
        match entry with
        | .value value => .yielded (key, value) { iterator with sources := sources' }
        | .tombstone => .passed { iterator with sources := sources' } := by
  rcases turn_eq files iterator with
    ⟨turn, finished⟩ | ⟨front, source, back, key, entry, split, stands, inFront, inBack, turn⟩
  · refine .inl ⟨turn, fun run member => ?_⟩
    obtain ⟨source, inSources, offered⟩ := exists_related offers.flip member
    have none := Offers.next_eq offered
    rw [finished source inSources] at none
    exact List.head?_eq_none_iff.mp none.symm
  · obtain ⟨atLeast, newest⟩ := newestAt_of_best offers sorted split stands inFront inBack
    obtain ⟨sources', ran, offers'⟩ := advanceSources_of_offers offers key
    refine .inr ⟨key, entry, sources', atLeast, newest, offers', ?_⟩
    rw [turn, ran]
    cases entry <;> rfl

theorem keepEntry_true (entry : Option Entry) :
    keepEntry true entry = (visible entry).map .value := by
  rcases entry with _ | _ | _ <;> rfl

/-- Pairs of a scan, as entries. -/
def asEntries (pairs : List (Key × Bytes)) : List (Key × Entry) :=
  pairs.map fun pair => (pair.1, .value pair.2)

theorem keySorted_asEntries {pairs : List (Key × Bytes)} :
    KeySorted (asEntries pairs) ↔ KeySorted pairs :=
  List.pairwise_map

theorem valueAt_asEntries (pairs : List (Key × Bytes)) (key : Key) :
    valueAt (asEntries pairs) key = (valueAt pairs key).map .value := by
  induction pairs with
  | nil => rfl
  | cons pair rest ih =>
      rw [asEntries, List.map_cons, valueAt, valueAt]
      split
      · rfl
      · exact ih

/-- **Draining yields the merge.** If no read of the sources fails, the iterator is
drained, and it has yielded the newest values of the runs in key order. -/
theorem drains_of_runs {runs : List (List (Key × Entry))}
    (offers : List.Forall₂ (Offers files iterator.start iterator.stop) iterator.sources runs)
    (sorted : ∀ run ∈ runs, KeySorted run) :
    ∃ pairs, iterator.Drains files pairs ∧ KeySorted pairs ∧
      ∀ key, valueAt pairs key = visible (newestAt runs key) := by
  -- by the number of items left, which every turn makes smaller
  induction count : iterator.left files using Nat.strong_induction_on generalizing iterator runs with
  | _ count ih =>
      rcases turn_of_runs offers sorted with
        ⟨turn, empty⟩ | ⟨key, entry, sources', atLeast, newest, offers', turn⟩
      · refine ⟨[], by rw [drains_iff, turn], List.Pairwise.nil, fun key => ?_⟩
        have nothing : newestAt runs key = none :=
          List.findSome?_eq_none_iff.mpr fun run member => by rw [empty run member, valueAt_nil]
        rw [nothing]
        rfl
      · have fewer : EngineIterator.left files { iterator with sources := sources' } <
            iterator.left files := by
          rcases turn_cases files iterator with
            ⟨other, _⟩ | ⟨cause, after, other⟩ | ⟨_, value, after, other, taken⟩ |
              ⟨_, after, other, taken⟩
          all_goals
            rw [turn] at other
            cases entry <;> cases other
          · exact taken.left_lt
          · exact taken.left_lt
        have sorted' : ∀ run ∈ runs.map (skip key), KeySorted run := by
          intro run member
          obtain ⟨old, isRun, rfl⟩ := List.mem_map.mp member
          exact sorted_skip (sorted old isRun) key
        obtain ⟨rest, drained, restSorted, values⟩ := ih _ (count ▸ fewer) offers' sorted' rfl
        have round := round_spec sorted atLeast (keySorted_asEntries.mpr restSorted)
          (fun wanted => by rw [valueAt_asEntries, values, keepEntry_true]) newest
        cases entry with
        | value value =>
            rw [if_neg (by simp)] at round
            refine ⟨(key, value) :: rest, ?_, keySorted_asEntries.mp round.1, fun wanted => ?_⟩
            · rw [drains_iff, turn]
              exact ⟨rest, rfl, drained⟩
            · have found := round.2 wanted
              rw [keepEntry_true] at found
              exact Option.map_injective (fun _ _ => Entry.value.inj)
                ((valueAt_asEntries ((key, value) :: rest) wanted).symm.trans found)
        | tombstone =>
            refine ⟨rest, ?_, restSorted, fun wanted => ?_⟩
            · rw [drains_iff, turn]
              exact drained
            · have found := round.2 wanted
              rw [if_pos ⟨rfl, rfl⟩, keepEntry_true, valueAt_asEntries] at found
              exact Option.map_injective (fun _ _ => Entry.value.inj) found

end Turns

end LsmStore
