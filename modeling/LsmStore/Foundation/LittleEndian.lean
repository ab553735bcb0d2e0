import Mathlib

/-!
# Little-endian numerals

A number written in a fixed number of bytes, least significant byte first, and
read back.  Writing in `width` bytes keeps the number modulo `256 ^ width`;
reading is injective on byte strings of one length.  A fixed-width field of a
binary format is one of these numerals, and the two round trips are all that a
parser of such a format needs.
-/

set_option autoImplicit false

namespace LsmStore.Foundation

/-- `number` in `width` bytes, least significant byte first. -/
def toLeBytes : Nat → Nat → List UInt8
  | 0, _ => []
  | width + 1, number => UInt8.ofNat number :: toLeBytes width (number / 256)

/-- The number a byte string spells, least significant byte first. -/
def ofLeBytes : List UInt8 → Nat
  | [] => 0
  | byte :: rest => byte.toNat + 256 * ofLeBytes rest

@[simp] theorem length_toLeBytes (width number : Nat) :
    (toLeBytes width number).length = width := by
  induction width generalizing number with
  | zero => rfl
  | succ width ih => simp only [toLeBytes, List.length_cons, ih]

/-- A numeral is below the first number that needs one byte more. -/
theorem ofLeBytes_lt (bytes : List UInt8) : ofLeBytes bytes < 256 ^ bytes.length := by
  induction bytes with
  | nil => simp [ofLeBytes]
  | cons byte rest ih =>
      have small : byte.toNat < 256 := byte.toNat_lt
      simp only [ofLeBytes, List.length_cons, pow_succ]
      omega

/-- **Writing then reading keeps the number up to the width.** -/
theorem ofLeBytes_toLeBytes (width number : Nat) :
    ofLeBytes (toLeBytes width number) = number % 256 ^ width := by
  induction width generalizing number with
  | zero => simp [toLeBytes, ofLeBytes, Nat.mod_one]
  | succ width ih =>
      have low : (UInt8.ofNat number).toNat = number % 256 := UInt8.toNat_ofNat'
      simp only [toLeBytes, ofLeBytes, ih, low]
      rw [pow_succ, mul_comm (256 ^ width) 256, Nat.mod_mul]

theorem ofLeBytes_toLeBytes_of_lt {width number : Nat} (fits : number < 256 ^ width) :
    ofLeBytes (toLeBytes width number) = number := by
  rw [ofLeBytes_toLeBytes, Nat.mod_eq_of_lt fits]

/-- **Reading then writing returns the bytes.** -/
theorem toLeBytes_ofLeBytes (bytes : List UInt8) :
    toLeBytes bytes.length (ofLeBytes bytes) = bytes := by
  induction bytes with
  | nil => rfl
  | cons byte rest ih =>
      have small : byte.toNat < 256 := byte.toNat_lt
      have low : UInt8.ofNat (byte.toNat + 256 * ofLeBytes rest) = byte := by
        apply UInt8.toNat_inj.mp
        rw [UInt8.toNat_ofNat']
        omega
      have high : (byte.toNat + 256 * ofLeBytes rest) / 256 = ofLeBytes rest := by omega
      simp only [List.length_cons, toLeBytes, ofLeBytes, low, high, ih]

/-- Numerals of one length that spell the same number are the same bytes. -/
theorem ofLeBytes_injective {left right : List UInt8} (sameLength : left.length = right.length)
    (sameNumber : ofLeBytes left = ofLeBytes right) : left = right := by
  rw [← toLeBytes_ofLeBytes left, ← toLeBytes_ofLeBytes right, sameLength, sameNumber]

end LsmStore.Foundation
