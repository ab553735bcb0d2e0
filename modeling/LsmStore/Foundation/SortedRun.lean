import Mathlib

/-!
# Sorted runs

A sorted run is an association list with strictly increasing keys.  It is
determined by its lookups (`KeySorted.ext`), so a run built in any way is the
run with the right lookups.  A sorted map is a run bundled with its order; it
models an ordered dictionary, with insertion replacing the value of a key that
is present.
-/

set_option autoImplicit false

namespace LsmStore.Foundation

variable {K V : Type} [LinearOrder K]

/-- Strictly increasing keys. -/
def KeySorted (run : List (K × V)) : Prop := run.Pairwise (fun first second => first.1 < second.1)

instance (run : List (K × V)) : Decidable (KeySorted run) :=
  inferInstanceAs (Decidable (List.Pairwise _ run))

/-- The value of the first pair with the given key. -/
def valueAt : List (K × V) → K → Option V
  | [], _ => none
  | (key, value) :: rest, wanted => if wanted = key then some value else valueAt rest wanted

/-! ## Lookups -/

@[simp] theorem valueAt_nil (wanted : K) : valueAt ([] : List (K × V)) wanted = none := rfl

theorem mem_of_valueAt {run : List (K × V)} {wanted : K} {value : V}
    (found : valueAt run wanted = some value) : (wanted, value) ∈ run := by
  induction run with
  | nil => cases found
  | cons pair rest ih =>
      obtain ⟨key, other⟩ := pair
      rw [valueAt] at found
      split at found
      · rename_i same
        cases found
        subst same
        exact List.mem_cons_self
      · exact List.mem_cons_of_mem _ (ih found)

theorem valueAt_eq_none_iff {run : List (K × V)} {wanted : K} :
    valueAt run wanted = none ↔ ∀ pair ∈ run, pair.1 ≠ wanted := by
  induction run with
  | nil => simp
  | cons pair rest ih =>
      obtain ⟨key, other⟩ := pair
      rw [valueAt]
      split
      · rename_i same
        simp [same]
      · rename_i different
        rw [ih]
        simp [Ne.symm different]

theorem valueAt_append (front back : List (K × V)) (wanted : K) :
    valueAt (front ++ back) wanted = (valueAt front wanted).or (valueAt back wanted) := by
  induction front with
  | nil => rfl
  | cons pair rest ih =>
      obtain ⟨key, value⟩ := pair
      rw [List.cons_append, valueAt, valueAt]
      split
      · rfl
      · exact ih

theorem KeySorted.tail {pair : K × V} {rest : List (K × V)} (sorted : KeySorted (pair :: rest)) :
    KeySorted rest :=
  List.Pairwise.of_cons sorted

theorem KeySorted.head_lt {pair other : K × V} {rest : List (K × V)}
    (sorted : KeySorted (pair :: rest)) (member : other ∈ rest) : pair.1 < other.1 :=
  List.rel_of_pairwise_cons sorted member

/-- In a sorted run every pair is found under its key. -/
theorem KeySorted.valueAt_of_mem {run : List (K × V)} (sorted : KeySorted run) {wanted : K}
    {value : V} (member : (wanted, value) ∈ run) : valueAt run wanted = some value := by
  induction run with
  | nil => cases member
  | cons pair rest ih =>
      obtain ⟨key, other⟩ := pair
      rw [valueAt]
      rcases List.mem_cons.mp member with same | later
      · cases same
        rw [if_pos rfl]
      · rw [if_neg (ne_of_gt (sorted.head_lt later))]
        exact ih sorted.tail later

theorem KeySorted.valueAt_eq_some_iff {run : List (K × V)} (sorted : KeySorted run) {wanted : K}
    {value : V} : valueAt run wanted = some value ↔ (wanted, value) ∈ run :=
  ⟨mem_of_valueAt, sorted.valueAt_of_mem⟩

/-- **A sorted run is determined by its lookups.** -/
theorem KeySorted.ext {left right : List (K × V)} (leftSorted : KeySorted left)
    (rightSorted : KeySorted right) (same : ∀ key, valueAt left key = valueAt right key) :
    left = right := by
  refine List.Pairwise.eq_of_mem_iff (r := fun first second : K × V => first.1 < second.1)
    leftSorted rightSorted ?_
  rintro ⟨key, value⟩
  rw [← leftSorted.valueAt_eq_some_iff, ← rightSorted.valueAt_eq_some_iff, same key]

theorem KeySorted.filter {run : List (K × V)} (sorted : KeySorted run) (keep : K × V → Bool) :
    KeySorted (run.filter keep) :=
  List.Pairwise.filter keep sorted

/-- Filtering a sorted run filters its lookups. -/
theorem KeySorted.valueAt_filter {run : List (K × V)} (sorted : KeySorted run)
    (keep : K × V → Bool) (wanted : K) :
    valueAt (run.filter keep) wanted =
      (valueAt run wanted).filter (fun value => keep (wanted, value)) := by
  ext value
  rw [(sorted.filter keep).valueAt_eq_some_iff, List.mem_filter, Option.filter_eq_some_iff,
    sorted.valueAt_eq_some_iff]

/-- Every key of a sorted run is at least its first key. -/
theorem KeySorted.head_le {pair other : K × V} {rest : List (K × V)}
    (sorted : KeySorted (pair :: rest)) (member : other ∈ pair :: rest) : pair.1 ≤ other.1 := by
  rcases List.mem_cons.mp member with rfl | later
  · exact le_refl _
  · exact le_of_lt (sorted.head_lt later)

/-- Every key of a sorted run is at most its last key. -/
theorem KeySorted.le_getLast {run : List (K × V)} (sorted : KeySorted run) {last other : K × V}
    (isLast : run.getLast? = some last) (member : other ∈ run) : other.1 ≤ last.1 := by
  obtain ⟨front, rfl⟩ := List.getLast?_eq_some_iff.mp isLast
  rcases List.mem_append.mp member with earlier | final
  · exact le_of_lt ((List.pairwise_append.mp sorted).2.2 other earlier last (by simp))
  · rw [List.mem_singleton.mp final]

/-! ## Insertion -/

/-- Inserts a pair in key order, replacing the pair with the same key. -/
def insertAt : List (K × V) → K → V → List (K × V)
  | [], key, value => [(key, value)]
  | (other, old) :: rest, key, value =>
      if key < other then (key, value) :: (other, old) :: rest
      else if key = other then (key, value) :: rest
      else (other, old) :: insertAt rest key value

theorem valueAt_insertAt (run : List (K × V)) (key wanted : K) (value : V) :
    valueAt (insertAt run key value) wanted =
      if wanted = key then some value else valueAt run wanted := by
  induction run with
  | nil => rfl
  | cons pair rest ih =>
      obtain ⟨other, old⟩ := pair
      rw [insertAt]
      split
      · rfl
      · split
        · rename_i same
          subst same
          simp only [valueAt]
          split <;> rfl
        · rename_i different
          rw [valueAt, ih, valueAt]
          split
          · rename_i atOther
            rw [if_neg (by rw [atOther]; exact Ne.symm different)]
          · rfl

theorem mem_insertAt {run : List (K × V)} {key : K} {value : V} {pair : K × V}
    (member : pair ∈ insertAt run key value) : pair = (key, value) ∨ pair ∈ run := by
  induction run with
  | nil => exact .inl (List.mem_singleton.mp member)
  | cons head rest ih =>
      obtain ⟨other, old⟩ := head
      rw [insertAt] at member
      split at member
      · rcases List.mem_cons.mp member with rfl | later
        · exact .inl rfl
        · exact .inr later
      · split at member
        · rcases List.mem_cons.mp member with rfl | later
          · exact .inl rfl
          · exact .inr (List.mem_cons_of_mem _ later)
        · rcases List.mem_cons.mp member with rfl | later
          · exact .inr List.mem_cons_self
          · rcases ih later with rfl | old
            · exact .inl rfl
            · exact .inr (List.mem_cons_of_mem _ old)

theorem KeySorted.insertAt {run : List (K × V)} (sorted : KeySorted run) (key : K) (value : V) :
    KeySorted (insertAt run key value) := by
  induction run with
  | nil => exact List.pairwise_singleton _ _
  | cons pair rest ih =>
      obtain ⟨other, old⟩ := pair
      rw [Foundation.insertAt]
      split
      · rename_i before
        refine List.pairwise_cons.mpr ⟨fun later member => ?_, sorted⟩
        rcases List.mem_cons.mp member with rfl | further
        · exact before
        · exact lt_trans before (sorted.head_lt further)
      · split
        · rename_i same
          subst same
          exact List.pairwise_cons.mpr ⟨fun later member => sorted.head_lt member, sorted.tail⟩
        · rename_i notBefore different
          refine List.pairwise_cons.mpr ⟨fun later member => ?_, ih sorted.tail⟩
          rcases mem_insertAt member with rfl | further
          · exact lt_of_le_of_ne (not_lt.mp notBefore) (Ne.symm different)
          · exact sorted.head_lt further

/-- What the pairs of a run weigh once a pair is inserted: the pair it replaces no
longer counts. -/
theorem KeySorted.sum_insertAt {run : List (K × V)} (sorted : KeySorted run)
    (weight : K × V → Nat) (key : K) (value : V) :
    ((Foundation.insertAt run key value).map weight).sum +
        ((valueAt run key).elim 0 fun old => weight (key, old)) =
      (run.map weight).sum + weight (key, value) := by
  induction run with
  | nil => simp [Foundation.insertAt]
  | cons pair rest ih =>
      obtain ⟨other, old⟩ := pair
      rw [Foundation.insertAt, valueAt]
      split
      · rename_i before
        have absent : valueAt rest key = none := by
          refine valueAt_eq_none_iff.mpr fun later member => ?_
          exact ne_of_gt (lt_trans before (sorted.head_lt member))
        rw [if_neg (ne_of_lt before), absent]
        simp only [List.map_cons, List.sum_cons, Option.elim_none]
        omega
      · split
        · rename_i same
          subst same
          simp only [List.map_cons, List.sum_cons, Option.elim_some]
          omega
        · have others := ih sorted.tail
          simp only [List.map_cons, List.sum_cons]
          omega

/-! ## Sorted maps -/

/-- An ordered dictionary: a run that carries the proof of its order. -/
structure SortedMap (K V : Type) [LinearOrder K] where
  toRun : List (K × V)
  sorted : KeySorted toRun

namespace SortedMap

/-- The empty map. -/
def empty : SortedMap K V := ⟨[], List.Pairwise.nil⟩

/-- The value of a key. -/
def get? (map : SortedMap K V) (key : K) : Option V := valueAt map.toRun key

/-- The map with `key` bound to `value`. -/
def insert (map : SortedMap K V) (key : K) (value : V) : SortedMap K V :=
  ⟨insertAt map.toRun key value, map.sorted.insertAt key value⟩

theorem get?_insert (map : SortedMap K V) (key wanted : K) (value : V) :
    (map.insert key value).get? wanted = if wanted = key then some value else map.get? wanted :=
  valueAt_insertAt _ _ _ _

end SortedMap

end LsmStore.Foundation
