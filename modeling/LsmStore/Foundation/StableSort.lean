import Mathlib

/-!
# Insertion sort is stable

Sorting by a total preorder keeps the order of elements that are alike.  So a list
that is kept sorted while elements are appended to it and taken out of it is the
sorted list of what was appended and not taken out, in the order of appending
(`insertionSort_insertionSort_append`, `filter_insertionSort`).
-/

set_option autoImplicit false

namespace LsmStore.Foundation

variable {α : Type} {before : α → α → Prop} [DecidableRel before]

theorem insertionSort_append (first second : List α) :
    (first ++ second).insertionSort before =
      first.foldr (List.orderedInsert before) (second.insertionSort before) := by
  induction first with
  | nil => rfl
  | cons head rest ih => rw [List.cons_append, List.insertionSort_cons, ih, List.foldr_cons]

section Preorder

variable [IsTrans α before]

/-- Taking elements out of a sorted list in which one more has been inserted. -/
theorem filter_orderedInsert (keep : α → Bool) (item : α) {items : List α}
    (sorted : items.Pairwise before) :
    (items.orderedInsert before item).filter keep =
      if keep item then (items.filter keep).orderedInsert before item else items.filter keep := by
  induction items with
  | nil => by_cases kept : keep item <;> simp [kept]
  | cons head rest ih =>
      obtain ⟨least, restSorted⟩ := List.pairwise_cons.mp sorted
      by_cases here : before item head
      · rw [List.orderedInsert_cons_of_le before rest here, List.filter_cons]
        split
        · -- Everything that is left of the list comes after the item.
          have inFront : ∀ other ∈ (head :: rest).filter keep, before item other := by
            intro other member
            rcases List.mem_cons.mp (List.mem_filter.mp member).1 with rfl | later
            · exact here
            · exact IsTrans.trans _ _ _ here (least other later)
          cases left : (head :: rest).filter keep with
          | nil => rfl
          | cons first others =>
              rw [List.orderedInsert_cons_of_le before others
                (inFront first (by rw [left]; exact List.mem_cons_self))]
        · rfl
      · rw [List.orderedInsert_of_not_le before rest here, List.filter_cons, ih restSorted,
          List.filter_cons]
        by_cases kept : keep head <;> by_cases keptItem : keep item <;> simp [kept, keptItem, here]

variable [Std.Total before]

/-- Two elements of which one comes strictly first can be inserted in either order. -/
theorem orderedInsert_comm {first second : α} (strict : ¬ before second first) (items : List α) :
    (items.orderedInsert before second).orderedInsert before first =
      (items.orderedInsert before first).orderedInsert before second := by
  have ahead : before first second := (Std.Total.total first second).resolve_right strict
  induction items with
  | nil => simp [ahead, strict]
  | cons head rest ih =>
      by_cases secondFirst : before second head
      · have firstFirst : before first head := IsTrans.trans _ _ _ ahead secondFirst
        simp [secondFirst, firstFirst, ahead, strict]
      · by_cases firstFirst : before first head
        · simp [secondFirst, firstFirst, strict]
        · simp [secondFirst, firstFirst, ih]

/-- Inserting the elements of a list with one more in its place. -/
theorem foldr_orderedInsert (start : List α) (item : α) (items : List α) :
    (items.orderedInsert before item).foldr (List.orderedInsert before) start =
      (items.foldr (List.orderedInsert before) start).orderedInsert before item := by
  induction items with
  | nil => rfl
  | cons head rest ih =>
      by_cases here : before item head
      · rw [List.orderedInsert_cons_of_le before rest here]
        rfl
      · rw [List.orderedInsert_of_not_le before rest here, List.foldr_cons, ih,
          orderedInsert_comm here]
        rfl

/-- **Sorting a sorted list with more behind it** is sorting the original list with more
behind it. -/
theorem insertionSort_insertionSort_append (first second : List α) :
    (first.insertionSort before ++ second).insertionSort before =
      (first ++ second).insertionSort before := by
  rw [insertionSort_append, insertionSort_append]
  induction first with
  | nil => rfl
  | cons head rest ih => rw [List.insertionSort_cons, foldr_orderedInsert, ih, List.foldr_cons]

/-- **Taking elements out of a sorted list** leaves the sorted list of the others. -/
theorem filter_insertionSort (keep : α → Bool) (items : List α) :
    (items.insertionSort before).filter keep = (items.filter keep).insertionSort before := by
  induction items with
  | nil => rfl
  | cons head rest ih =>
      rw [List.insertionSort_cons, filter_orderedInsert keep head
        (List.pairwise_insertionSort before rest), ih, List.filter_cons]
      split
      · rw [List.insertionSort_cons]
      · rfl

end Preorder

end LsmStore.Foundation
