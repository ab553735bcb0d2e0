import Mathlib

/-!
# Binary search

Search in a slice by a comparison of each item with what is looked for, in the
way of the standard library: a window that always holds a match, if there is
one, is halved until one position is left.

A position that is found always holds a match.  If the slice is partitioned
into smaller items, matches and greater items, in this order, then a match is
found whenever there is one.
-/

set_option autoImplicit false

namespace LsmStore.Foundation

variable {α : Type}

/-- Halves the window of `size` positions from `base` until one position is left. -/
def narrow (compare : α → Ordering) (items : List α) : Nat → Nat → Nat → Nat
  | 0, base, _ => base
  | fuel + 1, base, size =>
      if size ≤ 1 then base
      else
        let middle := base + size / 2
        let next := if items[middle]?.map compare = some .gt then base else middle
        narrow compare items fuel next (size - size / 2)

/-- The position of an item that compares equal. -/
def binarySearchBy (compare : α → Ordering) (items : List α) : Option (Fin items.length) :=
  let base := narrow compare items items.length 0 items.length
  if inside : base < items.length then
    if compare (items.get ⟨base, inside⟩) = .eq then some ⟨base, inside⟩ else none
  else none

/-- Smaller items come first, greater items last. -/
def Partitioned (compare : α → Ordering) (items : List α) : Prop :=
  items.Pairwise fun first second =>
    (compare first = .gt → compare second = .gt) ∧ (compare second = .lt → compare first = .lt)

variable {compare : α → Ordering} {items : List α}

/-- **What is found is a match.** -/
theorem compare_binarySearchBy {position : Fin items.length}
    (found : binarySearchBy compare items = some position) :
    compare (items.get position) = .eq := by
  simp only [binarySearchBy] at found
  split at found
  · split at found
    · rename_i matching
      cases found
      exact matching
    · cases found
  · cases found

theorem Partitioned.gt_after (partitioned : Partitioned compare items) {i j : Nat}
    (inside : j < items.length) (before : i < j)
    (greater : compare (items[i]) = .gt) : compare items[j] = .gt :=
  (List.pairwise_iff_getElem.mp partitioned i j (lt_trans before inside) inside before).1 greater

theorem Partitioned.lt_before (partitioned : Partitioned compare items) {i j : Nat}
    (inside : j < items.length) (before : i < j)
    (smaller : compare items[j] = .lt) : compare (items[i]) = .lt :=
  (List.pairwise_iff_getElem.mp partitioned i j (lt_trans before inside) inside before).2 smaller

/-- Some position of the window holds a match. -/
def InWindow (compare : α → Ordering) (items : List α) (base size : Nat) : Prop :=
  ∃ i, ∃ inside : i < items.length, base ≤ i ∧ i < base + size ∧ compare items[i] = .eq

/-- A window of one position that holds a match is that position. -/
theorem InWindow.single {base size : Nat} (holds : InWindow compare items base size)
    (small : size ≤ 1) :
    ∃ inside : base < items.length, compare (items.get ⟨base, inside⟩) = .eq := by
  obtain ⟨i, inside, low, high, matching⟩ := holds
  obtain rfl : i = base := by omega
  exact ⟨inside, matching⟩

/-- A window whose middle is greater keeps its match in the lower half. -/
theorem InWindow.lower (partitioned : Partitioned compare items) {base size : Nat}
    (holds : InWindow compare items base size) (inside : base + size / 2 < items.length)
    (greater : compare items[base + size / 2] = .gt) :
    InWindow compare items base (size - size / 2) := by
  obtain ⟨i, iInside, low, high, matching⟩ := holds
  refine ⟨i, iInside, low, ?_, matching⟩
  by_contra late
  rcases Nat.lt_or_eq_of_le (show base + size / 2 ≤ i by omega) with after | same
  · have behind := partitioned.gt_after iInside after greater
    rw [matching] at behind
    cases behind
  · subst same
    rw [matching] at greater
    cases greater

/-- A window whose middle is not greater keeps a match from the middle on. -/
theorem InWindow.upper (partitioned : Partitioned compare items) {base size : Nat}
    (holds : InWindow compare items base size) (more : 1 < size)
    (inside : base + size / 2 < items.length)
    (notGreater : compare items[base + size / 2] ≠ .gt) :
    InWindow compare items (base + size / 2) (size - size / 2) := by
  obtain ⟨i, iInside, low, high, matching⟩ := holds
  by_cases late : base + size / 2 ≤ i
  · exact ⟨i, iInside, late, by omega, matching⟩
  · refine ⟨base + size / 2, inside, le_refl _, by omega, ?_⟩
    cases comparison : compare items[base + size / 2] with
    | gt => exact absurd comparison notGreater
    | eq => rfl
    | lt =>
        have smaller := partitioned.lt_before inside (not_le.mp late) comparison
        rw [matching] at smaller
        cases smaller

/-- A window that holds a match narrows to a match. -/
theorem narrow_spec (partitioned : Partitioned compare items) (fuel : Nat) {base size : Nat}
    (enough : size ≤ fuel + 1) (within : base + size ≤ items.length)
    (holds : InWindow compare items base size) :
    ∃ inside : narrow compare items fuel base size < items.length,
      compare (items.get ⟨narrow compare items fuel base size, inside⟩) = .eq := by
  induction fuel generalizing base size with
  | zero => exact holds.single enough
  | succ fuel ih =>
      by_cases small : size ≤ 1
      · simp only [narrow, if_pos small]
        exact holds.single small
      · have inside : base + size / 2 < items.length := by omega
        simp only [narrow, if_neg small, List.getElem?_eq_getElem inside, Option.map_some,
          Option.some.injEq]
        split
        · rename_i greater
          exact ih (by omega) (by omega) (holds.lower partitioned inside greater)
        · rename_i notGreater
          exact ih (by omega) (by omega)
            (holds.upper partitioned (by omega) inside notGreater)

/-- **A match is found in a partitioned slice.** -/
theorem exists_binarySearchBy (partitioned : Partitioned compare items) {item : α}
    (member : item ∈ items) (matching : compare item = .eq) :
    ∃ position, binarySearchBy compare items = some position := by
  obtain ⟨i, inside, rfl⟩ := List.mem_iff_getElem.mp member
  have holds : InWindow compare items 0 items.length :=
    ⟨i, inside, Nat.zero_le _, by omega, matching⟩
  obtain ⟨baseInside, found⟩ := narrow_spec partitioned items.length (by omega) (by omega) holds
  refine ⟨⟨_, baseInside⟩, ?_⟩
  simp only [binarySearchBy, dif_pos baseInside]
  rw [if_pos found]

end LsmStore.Foundation
