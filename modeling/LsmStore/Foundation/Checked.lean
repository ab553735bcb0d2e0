import Mathlib

/-!
# Operations that may panic

Slicing and indexing a list out of its bounds, and machine arithmetic that leaves
its range, end a program.  The operations here return the value where it exists
and a given failure where it does not; a parser written with them shows every place
at which it could end that way.  Each operation has one rule, which says when it
succeeds and with what.
-/

set_option autoImplicit false

namespace LsmStore.Foundation

variable {ε α β : Type}

/-! ## Operations -/

section Operations

variable (panic : ε)

/-- `items[start..stop]`. -/
def slice (items : List α) (start stop : Nat) : Except ε (List α) :=
  if start ≤ stop ∧ stop ≤ items.length then .ok ((items.drop start).take (stop - start))
  else .error panic

/-- A sum in a type whose largest value is `limit`. -/
def addWithin (limit first second : Nat) : Except ε Nat :=
  if first + second ≤ limit then .ok (first + second) else .error panic

/-- A difference of unsigned numbers. -/
def subWithin (first second : Nat) : Except ε Nat :=
  if second ≤ first then .ok (first - second) else .error panic

end Operations

/-! ## When they succeed -/

variable {panic : ε}

@[simp] theorem ok_bind (value : α) (next : α → Except ε β) :
    (Except.ok value >>= next) = next value := rfl

theorem addWithin_ok {limit first second : Nat} (fits : first + second ≤ limit) :
    addWithin panic limit first second = .ok (first + second) :=
  if_pos fits

theorem addWithin_bind (limit first second : Nat) (next : Nat → Except ε β) :
    (addWithin panic limit first second >>= next) =
      if first + second ≤ limit then next (first + second) else .error panic := by
  rw [addWithin]
  split <;> rfl

theorem subWithin_ok {first second : Nat} (below : second ≤ first) :
    subWithin panic first second = .ok (first - second) :=
  if_pos below

end LsmStore.Foundation
