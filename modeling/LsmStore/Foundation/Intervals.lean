import Mathlib

/-!
# Closed intervals of a linear order

Two closed intervals given by their ends are apart when one ends before the
other begins.  A star of intervals is a base interval with satellites that each
meet it; the hull of a star contains no interval that is apart from the base
and from every satellite (`apart_hull_of_apart_star`).
-/

set_option autoImplicit false

namespace LsmStore.Foundation

variable {K : Type} [LinearOrder K]

/-- The intervals `[low, high]` and `[low', high']` do not meet. -/
def Apart (low high low' high' : K) : Prop := high < low' ∨ high' < low

theorem Apart.symm {low high low' high' : K} (apart : Apart low high low' high') :
    Apart low' high' low high :=
  Or.symm apart

theorem not_apart_iff {low high low' high' : K} :
    ¬ Apart low high low' high' ↔ low' ≤ high ∧ low ≤ high' := by
  simp only [Apart, not_or, not_lt]

/-- Intervals inside intervals that do not meet do not meet. -/
theorem Apart.mono {low high low' high' inner innerHigh inner' innerHigh' : K}
    (apart : Apart low high low' high') (lowLe : low ≤ inner) (highLe : innerHigh ≤ high)
    (lowLe' : low' ≤ inner') (highLe' : innerHigh' ≤ high') :
    Apart inner innerHigh inner' innerHigh' := by
  rcases apart with before | after
  · exact .inl (lt_of_le_of_lt highLe (lt_of_lt_of_le before lowLe'))
  · exact .inr (lt_of_le_of_lt highLe' (lt_of_lt_of_le after lowLe))

/-- A point lies in at most one of two intervals that do not meet. -/
theorem Apart.not_mem {low high low' high' point : K} (apart : Apart low high low' high')
    (lowLe : low ≤ point) (leHigh : point ≤ high) (lowLe' : low' ≤ point)
    (leHigh' : point ≤ high') : False := by
  rcases apart with before | after
  · exact absurd (lt_of_le_of_lt leHigh before) (not_lt.mpr lowLe')
  · exact absurd (lt_of_le_of_lt leHigh' after) (not_lt.mpr lowLe)

/-- **The hull of a star.** An interval apart from the base and from every
satellite is apart from every interval whose ends lie in the star. -/
theorem apart_hull_of_apart_star {S : Type} {base baseHigh : K} (satellites : List S)
    (low high : S → K)
    (meets : ∀ satellite ∈ satellites, ¬ Apart (low satellite) (high satellite) base baseHigh)
    {other otherHigh : K} (ordered : other ≤ otherHigh)
    (apartBase : Apart other otherHigh base baseHigh)
    (apartSatellites : ∀ satellite ∈ satellites,
      Apart other otherHigh (low satellite) (high satellite))
    {left right : K}
    (leftInside : (base ≤ left ∧ left ≤ baseHigh) ∨
      ∃ satellite ∈ satellites, low satellite ≤ left ∧ left ≤ high satellite)
    (rightInside : (base ≤ right ∧ right ≤ baseHigh) ∨
      ∃ satellite ∈ satellites, low satellite ≤ right ∧ right ≤ high satellite) :
    Apart other otherHigh left right := by
  by_contra meeting
  obtain ⟨leftLe, leRight⟩ := not_apart_iff.mp meeting
  rcases apartBase with before | after
  · -- The interval lies before the base, and so does the left end of the hull.
    rcases leftInside with ⟨baseLe, _⟩ | ⟨satellite, member, lowLe, leHigh⟩
    · exact absurd (lt_of_le_of_lt leftLe before) (not_lt.mpr baseLe)
    · obtain ⟨baseLe, _⟩ := not_apart_iff.mp (meets satellite member)
      rcases apartSatellites satellite member with early | late
      · exact absurd (lt_of_lt_of_le early lowLe) (not_lt.mpr leftLe)
      · exact absurd (lt_of_le_of_lt baseLe late) (not_lt.mpr (le_of_lt (lt_of_le_of_lt ordered before)))
  · -- The interval lies behind the base, and so does the right end of the hull.
    rcases rightInside with ⟨_, leBase⟩ | ⟨satellite, member, lowLe, leHigh⟩
    · exact absurd (lt_of_lt_of_le after leRight) (not_lt.mpr leBase)
    · obtain ⟨_, lowLeBase⟩ := not_apart_iff.mp (meets satellite member)
      rcases apartSatellites satellite member with early | late
      · exact absurd (lt_of_lt_of_le after ordered) (not_lt.mpr (le_trans (le_of_lt early) lowLeBase))
      · exact absurd (lt_of_le_of_lt leHigh late) (not_lt.mpr leRight)

end LsmStore.Foundation
