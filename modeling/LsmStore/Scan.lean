import LsmStore.ByteTables
import LsmStore.TableImage

/-!
# Scans

A scan merges every layer of the engine: the memtable, the frozen memtable and
the tables of the version, newest first.  Each source stands on its next item
within the bounds of the scan.  A turn of the merge takes the smallest key that
a source stands on, lets the first such source win, and advances every source
that stands on the key; a call of `next` takes turns until one yields a pair.

The sources of memtables are copies.  The source of a table only has the
table's index rows and path, and reads one block after the other from the file;
so everything here takes the table files as they are at the time of a call.

What a source still has to offer is its list of pending items; their number
bounds the turns of a call.
-/

set_option autoImplicit false

namespace LsmStore

open Foundation

/-- One side of the range of a scan. -/
inductive Bound where
  | unbounded
  | included (key : Key)
  | excluded (key : Key)
  deriving DecidableEq

/-- Whether a key lies within the bounds. -/
def inRange (key : Key) (start stop : Bound) : Bool :=
  let afterStart :=
    match start with
    | .unbounded => true
    | .included bound => decide (bound ≤ key)
    | .excluded bound => decide (bound < key)
  let beforeEnd :=
    match stop with
    | .unbounded => true
    | .included bound => decide (key ≤ bound)
    | .excluded bound => decide (key < bound)
  afterStart && beforeEnd

/-- Whether a key lies behind the upper bound. -/
def pastEnd (key : Key) (stop : Bound) : Bool :=
  match stop with
  | .unbounded => false
  | .included bound => decide (bound < key)
  | .excluded bound => decide (bound ≤ key)

/-! ## Sources -/

/-- What a source has behind the item it stands on. -/
inductive SourceRest where
  | vec (items : List (Key × Entry))
  | table (id : UInt64) (iterator : TableIterator)

/-- A source and the item it stands on. -/
structure PeekSource where
  next : Option (Key × Entry)
  rest : SourceRest

/-- The loop of `nextInRange`. -/
def nextInRangeLoop (file : Option Bytes) (start stop : Bound) :
    Nat → TableIterator → Except Error (Option (Key × Entry)) × TableIterator
  | 0, iterator => (.ok none, iterator)
  | fuel + 1, iterator =>
      match iterator.next file with
      | (none, iterator) => (.ok none, iterator)
      | (some (.error cause), iterator) => (.error cause, iterator)
      | (some (.ok (key, entry)), iterator) =>
          if inRange key start stop then (.ok (some (key, entry)), iterator)
          else if pastEnd key stop then (.ok none, iterator)
          else nextInRangeLoop file start stop fuel iterator

/-- The next item of a table within the bounds; the loop ends with the items. -/
def nextInRange (file : Option Bytes) (start stop : Bound) (iterator : TableIterator) :
    Except Error (Option (Key × Entry)) × TableIterator :=
  nextInRangeLoop file start stop ((iterator.items file).length + 1) iterator

namespace PeekSource

/-- A copy of the entries of a memtable within the bounds. -/
def fromMem (memtable : MemTable) (start stop : Bound) : PeekSource :=
  let items := memtable.iter.filter fun pair => inRange pair.1 start stop
  ⟨items.head?, .vec items.tail⟩

/-- A table, moved to its first item within the bounds. -/
def fromTable (id : UInt64) (file : Option Bytes) (iterator : TableIterator) (start stop : Bound) :
    Except Error PeekSource :=
  match nextInRange file start stop iterator with
  | (.error cause, _) => .error cause
  | (.ok next, iterator) => .ok ⟨next, .table id iterator⟩

/-- Moves a source to its next item; after a failed read it stands where it stood. -/
def advance (files : UInt64 → Option Bytes) (start stop : Bound) (source : PeekSource) :
    Except Error Unit × PeekSource :=
  match source.rest with
  | .vec items => (.ok (), ⟨items.head?, .vec items.tail⟩)
  | .table id iterator =>
      match nextInRange (files id) start stop iterator with
      | (.error cause, iterator) => (.error cause, ⟨source.next, .table id iterator⟩)
      | (.ok next, iterator) => (.ok (), ⟨next, .table id iterator⟩)

/-- Whether a source stands on a key. -/
def standsOn (key : Key) (source : PeekSource) : Bool := source.next.any fun item => item.1 = key

end PeekSource

/-! ## The merging iterator -/

/-- Merged, newest-wins iterator over every live layer. -/
structure EngineIterator where
  sources : List PeekSource
  start : Bound
  stop : Bound

/-- Opens the sources of tables. -/
def openSources {sizing : BloomSizing} (files : UInt64 → Option Bytes) (start stop : Bound) :
    List (SsTable (byteTables sizing)) → Except Error (List PeekSource)
  | [] => .ok []
  | table :: rest =>
      match TableIterator.new table.handle (files table.id) with
      | .error cause => .error cause
      | .ok iterator =>
          match PeekSource.fromTable table.id (files table.id) iterator start stop with
          | .error cause => .error cause
          | .ok source =>
              match openSources files start stop rest with
              | .error cause => .error cause
              | .ok sources => .ok (source :: sources)

/-- The smallest key the sources stand on, with the first source that stands on it. -/
def bestFrom : Nat → List PeekSource → Option (Nat × Key) → Option (Nat × Key)
  | _, [], best => best
  | index, source :: rest, best =>
      let best :=
        match source.next with
        | none => best
        | some (key, _) =>
            match best with
            | none => some (index, key)
            | some (held, bestKey) =>
                if key < bestKey then some (index, key) else some (held, bestKey)
      bestFrom (index + 1) rest best

/-- Advances every source that stands on a key, up to the first failure. -/
def advanceSources (files : UInt64 → Option Bytes) (start stop : Bound) (key : Key) :
    List PeekSource → Except Error Unit × List PeekSource
  | [] => (.ok (), [])
  | source :: rest =>
      if source.standsOn key then
        match source.advance files start stop with
        | (.error cause, source) => (.error cause, source :: rest)
        | (.ok (), source) =>
            let (outcome, rest) := advanceSources files start stop key rest
            (outcome, source :: rest)
      else
        let (outcome, rest) := advanceSources files start stop key rest
        (outcome, source :: rest)

/-- How one turn of the loop of `next` ends. -/
inductive Turn where
  /-- No source has an item left. -/
  | done
  /-- A source could not be advanced. -/
  | failed (cause : Error) (iterator : EngineIterator)
  /-- The newest entry of the key is a value. -/
  | yielded (pair : Key × Bytes) (iterator : EngineIterator)
  /-- The newest entry of the key is a tombstone: the loop goes on. -/
  | passed (iterator : EngineIterator)

namespace EngineIterator

/-- An iterator over the layers of the engine. -/
def new {sizing : BloomSizing} (engine : Engine (byteTables sizing))
    (files : UInt64 → Option Bytes) (start stop : Bound) : Except Error EngineIterator :=
  match openSources files start stop engine.version.tablesNewestFirst with
  | .error cause => .error cause
  | .ok tables =>
      let memtables := engine.memtable :: engine.immutable.toList
      .ok ⟨memtables.map (PeekSource.fromMem · start stop) ++ tables, start, stop⟩

/-- One turn of the loop of `next`. -/
def turn (files : UInt64 → Option Bytes) (iterator : EngineIterator) : Turn :=
  match bestFrom 0 iterator.sources none with
  | none => .done
  | some (winner, key) =>
      let entry : Option Entry := (iterator.sources[winner]?.bind PeekSource.next).map (·.2)
      match advanceSources files iterator.start iterator.stop key iterator.sources with
      | (.error cause, sources) => .failed cause { iterator with sources }
      | (.ok (), sources) =>
          match entry with
          | some (.value value) => .yielded (key, value) { iterator with sources }
          | some .tombstone => .passed { iterator with sources }
          | none => .passed { iterator with sources }

/-- The loop of `next`. -/
def nextLoop (files : UInt64 → Option Bytes) :
    Nat → EngineIterator → Option (Except Error (Key × Bytes)) × EngineIterator
  | 0, iterator => (none, iterator)
  | fuel + 1, iterator =>
      match iterator.turn files with
      | .done => (none, iterator)
      | .failed cause iterator => (some (.error cause), iterator)
      | .yielded pair iterator => (some (.ok pair), iterator)
      | .passed iterator => nextLoop files fuel iterator

end EngineIterator

/-- The items within the bounds, up to the first one past the end or a failed read. -/
def window (start stop : Bound) :
    List (Except Error (Key × Entry)) → List (Except Error (Key × Entry))
  | [] => []
  | .error cause :: _ => [.error cause]
  | .ok pair :: rest =>
      if inRange pair.1 start stop then .ok pair :: window start stop rest
      else if pastEnd pair.1 stop then []
      else window start stop rest

/-- The items that the source will come to behind the one it stands on. -/
def SourceRest.pending (files : UInt64 → Option Bytes) (start stop : Bound) :
    SourceRest → List (Except Error (Key × Entry))
  | .vec items => items.map .ok
  | .table id iterator => window start stop (iterator.items (files id))

/-- The items that a source still has to offer; once it stands on none, none. -/
def PeekSource.pending (files : UInt64 → Option Bytes) (start stop : Bound)
    (source : PeekSource) : List (Except Error (Key × Entry)) :=
  match source.next with
  | none => []
  | some item => .ok item :: source.rest.pending files start stop

namespace EngineIterator

/-- How many items the sources still have to offer. -/
def left (files : UInt64 → Option Bytes) (iterator : EngineIterator) : Nat :=
  (iterator.sources.map fun source =>
    (source.pending files iterator.start iterator.stop).length).sum

/-- The next visible pair; every turn consumes an item. -/
def next (files : UInt64 → Option Bytes) (iterator : EngineIterator) :
    Option (Except Error (Key × Bytes)) × EngineIterator :=
  nextLoop files (iterator.left files + 1) iterator

/-- Calling `next` until it returns nothing yields the pairs, and no error. -/
def Drains (files : UInt64 → Option Bytes) : EngineIterator → List (Key × Bytes) → Prop
  | iterator, [] => (iterator.next files).1 = none
  | iterator, pair :: rest =>
      (iterator.next files).1 = some (.ok pair) ∧ Drains files (iterator.next files).2 rest

end EngineIterator

/-- Ordered scan over the keys within the bounds. -/
def scan {sizing : BloomSizing} (start stop : Bound) : Action (byteTables sizing) EngineIterator :=
  fun db =>
    match EngineIterator.new db.engine db.disk.sst start stop with
    | .error cause => .error (.error cause) db
    | .ok iterator => .ok iterator db

end LsmStore
