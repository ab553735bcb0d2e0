import LsmStore.Foundation.LittleEndian

/-!
# Bytes, errors and options

Keys and values are byte strings, compared lexicographically as the standard
library compares byte slices.  An operation of the engine ends with a value, an
error of the crate, or a panic; arithmetic follows a build with overflow
checks, so an overflowing sum or product of machine integers is a panic, while
an `as` cast to a narrower type keeps the low bits.
-/

set_option autoImplicit false

namespace LsmStore

/-- A byte vector or slice. -/
abbrev Bytes : Type := List UInt8

instance instLinearOrderUInt8 : LinearOrder UInt8 where
  le_refl _ := UInt8.le_refl _
  le_trans _ _ _ := UInt8.le_trans
  le_antisymm _ _ := UInt8.le_antisymm
  le_total := UInt8.le_total
  toDecidableLE := inferInstance
  lt_iff_le_not_ge a b := by
    simp only [UInt8.lt_iff_toNat_lt, UInt8.le_iff_toNat_le]
    omega

/-- A key of the store. -/
abbrev Key : Type := Bytes

/-- The largest value of the 64-bit types `u64` and `usize`. -/
def u64Max : Nat := 2 ^ 64 - 1

/-- Maximum allowed key size, in bytes (64 KiB). -/
def maxKeySize : Nat := 64 * 1024

/-- Maximum allowed value size, in bytes (64 MiB). -/
def maxValueSize : Nat := 64 * 1024 * 1024

/-- Errors that the storage engine can return. -/
inductive Error where
  | io (source : String)
  | emptyKey
  | corruptedRecord
  | invalidChecksum
  | invalidManifest
  | keyTooLarge
  | valueTooLarge
  | compaction (message : String)
  deriving DecidableEq

/-- The text `Display` prints for an error. -/
def Error.toString : Error → String
  | .io source => "i/o error: " ++ source
  | .emptyKey => "keys must not be empty"
  | .corruptedRecord => "corrupted record"
  | .invalidChecksum => "invalid checksum"
  | .invalidManifest => "invalid manifest"
  | .keyTooLarge => "key exceeds the maximum allowed size"
  | .valueTooLarge => "value exceeds the maximum allowed size"
  | .compaction message => "compaction error: " ++ message

/-- How an operation can fail to return a value: with an error, or by a panic. -/
inductive Failure where
  | error (cause : Error)
  | panic
  deriving DecidableEq

/-- Configuration of an engine. -/
structure Options where
  /-- Flush the memtable once it holds roughly this many key and value bytes. -/
  memtableSizeBytes : Nat
  /-- Compact L0 once it contains at least this many tables. -/
  l0CompactionTrigger : Nat
  /-- Each level after L0 may grow by this factor over the previous level. -/
  levelSizeMultiplier : Nat
  /-- Maximum number of levels, including L0. -/
  maxLevels : Nat
  /-- Target false-positive rate of the per-table Bloom filters. -/
  bloomFalsePositiveRate : Float
  /-- Uncompressed data-block size target, in bytes. -/
  blockSize : Nat
  /-- Maximum decoded block-cache size, in bytes. -/
  cacheSizeBytes : Nat

/-- Options that keep tests small and deterministic. -/
def Options.forTest : Options where
  memtableSizeBytes := 2 * 1024
  l0CompactionTrigger := 2
  levelSizeMultiplier := 2
  maxLevels := 4
  bloomFalsePositiveRate := 0.01
  blockSize := 256
  cacheSizeBytes := 16 * 1024

end LsmStore
