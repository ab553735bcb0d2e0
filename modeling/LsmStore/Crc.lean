import LsmStore.Basics

/-!
# CRC32

The bit-level update of the shift register is injective, because the
polynomial has its top bit set: the bit shifted out can be read back off the
result.  Folding the update over a byte string is then injective in the start
state, and one changed byte changes the checksum.
-/

set_option autoImplicit false

namespace LsmStore

open Foundation

/-- One bit of the reflected CRC32 (IEEE 802.3, polynomial `0xEDB88320`). -/
def crcBit (crc : UInt32) : UInt32 :=
  let mask := -(crc &&& 1)
  (crc >>> 1) ^^^ (0xEDB88320 &&& mask)

/-- One byte: mix it in, then shift eight bits out. -/
def crcByte (crc : UInt32) (byte : UInt8) : UInt32 :=
  Nat.repeat crcBit 8 (crc ^^^ byte.toUInt32)

/-- The checksum of every on-disk structure of the engine. -/
def crc32 (bytes : Bytes) : UInt32 :=
  ~~~ bytes.foldl crcByte 0xFFFFFFFF

/-- A four-byte slice as a `u32`. -/
def readU32Le (bytes : Bytes) : UInt32 := UInt32.ofNat (ofLeBytes bytes)

/-- An eight-byte slice as a `u64`. -/
def readU64Le (bytes : Bytes) : UInt64 := UInt64.ofNat (ofLeBytes bytes)

/-- The bytes of a `u32`. -/
def u32ToLeBytes (number : UInt32) : Bytes := toLeBytes 4 number.toNat

/-- The bytes of a `u64`. -/
def u64ToLeBytes (number : UInt64) : Bytes := toLeBytes 8 number.toNat

/-- A length cast with `as u32`, in bytes. -/
def lenToLeBytes (length : Nat) : Bytes := u32ToLeBytes (UInt32.ofNat length)

/-! ## Fixed-width fields -/

@[simp] theorem length_u32ToLeBytes (number : UInt32) : (u32ToLeBytes number).length = 4 :=
  length_toLeBytes _ _

@[simp] theorem length_u64ToLeBytes (number : UInt64) : (u64ToLeBytes number).length = 8 :=
  length_toLeBytes _ _

@[simp] theorem length_lenToLeBytes (length : Nat) : (lenToLeBytes length).length = 4 :=
  length_u32ToLeBytes _

@[simp] theorem readU32Le_u32ToLeBytes (number : UInt32) :
    readU32Le (u32ToLeBytes number) = number := by
  have small : number.toNat < 256 ^ 4 := number.toNat_lt
  rw [readU32Le, u32ToLeBytes, ofLeBytes_toLeBytes_of_lt small, UInt32.ofNat_toNat]

@[simp] theorem readU64Le_u64ToLeBytes (number : UInt64) :
    readU64Le (u64ToLeBytes number) = number := by
  have small : number.toNat < 256 ^ 8 := number.toNat_lt
  rw [readU64Le, u64ToLeBytes, ofLeBytes_toLeBytes_of_lt small, UInt64.ofNat_toNat]

@[simp] theorem take_u32ToLeBytes_append (number : UInt32) (rest : Bytes) :
    (u32ToLeBytes number ++ rest).take 4 = u32ToLeBytes number :=
  List.take_left' (length_u32ToLeBytes number)

@[simp] theorem drop_u32ToLeBytes_append (number : UInt32) (rest : Bytes) :
    (u32ToLeBytes number ++ rest).drop 4 = rest :=
  List.drop_left' (length_u32ToLeBytes number)

@[simp] theorem take_u64ToLeBytes_append (number : UInt64) (rest : Bytes) :
    (u64ToLeBytes number ++ rest).take 8 = u64ToLeBytes number :=
  List.take_left' (length_u64ToLeBytes number)

@[simp] theorem drop_u64ToLeBytes_append (number : UInt64) (rest : Bytes) :
    (u64ToLeBytes number ++ rest).drop 8 = rest :=
  List.drop_left' (length_u64ToLeBytes number)

@[simp] theorem take_lenToLeBytes_append (length : Nat) (rest : Bytes) :
    (lenToLeBytes length ++ rest).take 4 = lenToLeBytes length :=
  take_u32ToLeBytes_append _ rest

@[simp] theorem drop_lenToLeBytes_append (length : Nat) (rest : Bytes) :
    (lenToLeBytes length ++ rest).drop 4 = rest :=
  drop_u32ToLeBytes_append _ rest

/-- A length below `2 ^ 32` survives the cast. -/
theorem toNat_readU32Le_lenToLeBytes {length : Nat} (fits : length < 2 ^ 32) :
    (readU32Le (lenToLeBytes length)).toNat = length := by
  rw [lenToLeBytes, readU32Le_u32ToLeBytes, UInt32.toNat_ofNat', Nat.mod_eq_of_lt fits]

/-- A four-byte field is the `u32` it reads as. -/
theorem u32ToLeBytes_readU32Le {bytes : Bytes} (four : bytes.length = 4) :
    u32ToLeBytes (readU32Le bytes) = bytes := by
  have small : ofLeBytes bytes < 2 ^ 32 := by
    have bound := ofLeBytes_lt bytes
    rw [four] at bound
    exact bound
  rw [u32ToLeBytes, readU32Le, UInt32.toNat_ofNat', Nat.mod_eq_of_lt small, ← four,
    toLeBytes_ofLeBytes]

/-- A four-byte field is the length it reads as. -/
theorem lenToLeBytes_readU32Le {bytes : Bytes} (four : bytes.length = 4) :
    lenToLeBytes (readU32Le bytes).toNat = bytes := by
  rw [lenToLeBytes, UInt32.ofNat_toNat, u32ToLeBytes_readU32Le four]

theorem mask_eq (crc : BitVec 32) :
    -(crc &&& 1#32) = if crc.getLsbD 0 then BitVec.allOnes 32 else 0#32 := by
  rw [BitVec.and_one_eq_setWidth_ofBool_getLsbD]
  cases crc.getLsbD 0 <;> rfl

/-- The top bit of the register after a shift is the bit shifted out. -/
theorem crcBit_topBit (crc : UInt32) :
    (crcBit crc).toBitVec.getLsbD 31 = crc.toBitVec.getLsbD 0 := by
  have outside : crc.toBitVec.getLsbD 32 = false := BitVec.getLsbD_of_ge _ _ (le_refl _)
  have top : (0xEDB88320#32).getLsbD 31 = true := by decide
  have shape : (crcBit crc).toBitVec =
      (crc.toBitVec >>> 1) ^^^ (0xEDB88320#32 &&& -(crc.toBitVec &&& 1#32)) := rfl
  rw [shape, mask_eq, BitVec.getLsbD_xor, BitVec.getLsbD_ushiftRight, outside,
    BitVec.getLsbD_and, top]
  cases crc.toBitVec.getLsbD 0 <;> decide

theorem crcBit_injective : Function.Injective crcBit := by
  intro left right same
  have lowBit : left.toBitVec.getLsbD 0 = right.toBitVec.getLsbD 0 := by
    rw [← crcBit_topBit left, ← crcBit_topBit right, same]
  have shape : ∀ crc : UInt32, (crcBit crc).toBitVec =
      (crc.toBitVec >>> 1) ^^^ (0xEDB88320#32 &&& -(crc.toBitVec &&& 1#32)) := fun _ => rfl
  have shifted : left.toBitVec >>> 1 = right.toBitVec >>> 1 := by
    have registers := congrArg UInt32.toBitVec same
    rw [shape, shape, mask_eq, mask_eq, lowBit] at registers
    exact (BitVec.xor_left_inj _).mp registers
  apply UInt32.toBitVec_inj.mp
  apply BitVec.eq_of_getLsbD_eq
  intro index inside
  cases index with
  | zero => exact lowBit
  | succ index =>
      have bit := congrArg (fun register => BitVec.getLsbD register index) shifted
      simpa only [BitVec.getLsbD_ushiftRight, Nat.add_comm 1 index] using bit

theorem repeat_injective {α : Type} {f : α → α} (injective : Function.Injective f) (n : Nat) :
    Function.Injective (Nat.repeat f n) := by
  induction n with
  | zero => exact fun _ _ same => same
  | succ n ih => exact fun _ _ same => ih (injective same)

theorem crcByte_injective_left (byte : UInt8) :
    Function.Injective (fun crc => crcByte crc byte) := by
  intro left right same
  exact (UInt32.xor_left_inj _).mp (repeat_injective crcBit_injective 8 same)

theorem crcByte_injective_right (crc : UInt32) : Function.Injective (crcByte crc) := by
  intro left right same
  have mixed := (UInt32.xor_right_inj _).mp (repeat_injective crcBit_injective 8 same)
  have numbers := congrArg UInt32.toNat mixed
  simp only [UInt8.toNat_toUInt32] at numbers
  exact UInt8.toNat_inj.mp numbers

/-- The register after a byte string determines the register before it. -/
theorem foldl_crcByte_injective (bytes : Bytes) :
    Function.Injective (fun crc => bytes.foldl crcByte crc) := by
  induction bytes with
  | nil => exact fun _ _ same => same
  | cons byte rest ih => exact fun _ _ same => crcByte_injective_left byte (ih same)

/-- **A change of one byte changes the checksum.** -/
theorem crc32_set_ne {bytes : Bytes} {position : Nat} {byte : UInt8}
    (inside : position < bytes.length) (changed : byte ≠ bytes[position]) :
    crc32 (bytes.set position byte) ≠ crc32 bytes := by
  intro same
  have registers : (bytes.set position byte).foldl crcByte 0xFFFFFFFF =
      bytes.foldl crcByte 0xFFFFFFFF := by
    have complements := congrArg (fun crc => ~~~ crc) same
    simpa only [crc32, UInt32.not_not] using complements
  have original : bytes = bytes.take position ++ bytes[position] :: bytes.drop (position + 1) := by
    rw [List.cons_getElem_drop_succ, List.take_append_drop]
  rw [List.set_eq_take_append_cons_drop, if_pos inside] at registers
  conv at registers => rhs; rw [original]
  simp only [List.foldl_append, List.foldl_cons] at registers
  exact changed (crcByte_injective_right _ (foldl_crcByte_injective _ registers))

example : crc32 [49, 50, 51, 52, 53, 54, 55, 56, 57] = 0xCBF43926 := by decide +kernel

end LsmStore
