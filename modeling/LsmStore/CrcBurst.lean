import LsmStore.Record

/-!
# CRC32 detects every short burst

The shift register is linear in exclusive or, and a register whose low bits are clear
only moves down as those bits are shifted out.  So bytes that are mixed in one after the
other act like one word mixed in at once (`foldl_crcByte_eq`), as long as the word has at
most the four bytes of the register.  As shifting is injective, two such windows that lead
to the same register are equal; what comes before and after the window does not help
(`crc32_burst`).  A record whose body changes within four bytes, or whose checksum field
alone changes, is therefore no record (`short_bursts_detected`).
-/

set_option autoImplicit false

namespace LsmStore

open Foundation

/-! ## The shift register is linear -/

theorem toBitVec_crcBit (crc : UInt32) :
    (crcBit crc).toBitVec =
      (crc.toBitVec >>> 1) ^^^
        (0xEDB88320#32 &&& if crc.toBitVec.getLsbD 0 then BitVec.allOnes 32 else 0#32) := by
  rw [← mask_eq]
  rfl

theorem crcBit_xor (left right : UInt32) :
    crcBit (left ^^^ right) = crcBit left ^^^ crcBit right := by
  have masks : ∀ first second : Bool,
      (0xEDB88320#32 &&& if first ^^ second then BitVec.allOnes 32 else 0#32) =
        (0xEDB88320#32 &&& if first then BitVec.allOnes 32 else 0#32) ^^^
          (0xEDB88320#32 &&& if second then BitVec.allOnes 32 else 0#32) := by
    decide
  apply UInt32.toBitVec_inj.mp
  rw [UInt32.toBitVec_xor, toBitVec_crcBit, toBitVec_crcBit, toBitVec_crcBit,
    UInt32.toBitVec_xor, BitVec.getLsbD_xor, BitVec.ushiftRight_xor_distrib, masks]
  ac_rfl

/-- A register with a clear low bit only moves down. -/
theorem crcBit_double {half : Nat} (fits : 2 * half < 2 ^ 32) :
    crcBit (UInt32.ofNat (2 * half)) = UInt32.ofNat half := by
  have clear : (BitVec.ofNat 32 (2 * half)).getLsbD 0 = false := by
    rw [BitVec.getLsbD_ofNat, Nat.testBit_zero]
    simp
  apply UInt32.toBitVec_inj.mp
  rw [toBitVec_crcBit]
  change (BitVec.ofNat 32 (2 * half) >>> 1) ^^^
    (_ &&& if (BitVec.ofNat 32 (2 * half)).getLsbD 0 then _ else _) = BitVec.ofNat 32 half
  rw [clear]
  apply BitVec.eq_of_toNat_eq
  simp
  omega

theorem repeat_add {α : Type} {f : α → α} (first second : Nat) (start : α) :
    Nat.repeat f (first + second) start = Nat.repeat f first (Nat.repeat f second start) := by
  induction first with
  | zero => rw [Nat.zero_add]; rfl
  | succ first ih =>
      rw [Nat.succ_add]
      exact congrArg f ih

theorem repeat_crcBit_xor (count : Nat) (left right : UInt32) :
    Nat.repeat crcBit count (left ^^^ right) =
      Nat.repeat crcBit count left ^^^ Nat.repeat crcBit count right := by
  induction count with
  | zero => rfl
  | succ count ih =>
      change crcBit (Nat.repeat crcBit count (left ^^^ right)) = _
      rw [ih, crcBit_xor]
      rfl

/-- Clear low bits are shifted out without a trace. -/
theorem repeat_crcBit_mul (count : Nat) {number : Nat} (fits : 2 ^ count * number < 2 ^ 32) :
    Nat.repeat crcBit count (UInt32.ofNat (2 ^ count * number)) = UInt32.ofNat number := by
  induction count generalizing number with
  | zero => rw [Nat.pow_zero, Nat.one_mul]; rfl
  | succ count ih =>
      have doubled : 2 ^ (count + 1) * number = 2 ^ count * (2 * number) := by ring
      have small : 2 * number < 2 ^ 32 := by
        refine lt_of_le_of_lt ?_ (doubled ▸ fits)
        exact Nat.le_mul_of_pos_left _ (Nat.two_pow_pos count)
      change crcBit (Nat.repeat crcBit count (UInt32.ofNat (2 ^ (count + 1) * number))) = _
      rw [doubled, ih (doubled ▸ fits), crcBit_double small]

/-! ## A window of at most four bytes -/

/-- A byte string as a word, its first byte lowest. -/
theorem readU32Le_cons (byte : UInt8) (rest : Bytes) :
    readU32Le (byte :: rest) = byte.toUInt32 ^^^ UInt32.ofNat (2 ^ 8 * ofLeBytes rest) := by
  have disjoint : ofLeBytes (byte :: rest) = byte.toNat ^^^ 2 ^ 8 * ofLeBytes rest := by
    have low : byte.toNat < 2 ^ 8 := byte.toNat_lt
    apply Nat.eq_of_testBit_eq
    intro index
    rw [ofLeBytes, Nat.add_comm, Nat.testBit_xor, Nat.testBit_two_pow_mul]
    change (2 ^ 8 * ofLeBytes rest + byte.toNat).testBit index = _
    rw [Nat.testBit_two_pow_mul_add _ low]
    by_cases inByte : index < 8
    · simp [inByte, Nat.not_le.mpr inByte]
    · have clear : byte.toNat.testBit index = false :=
        Nat.testBit_lt_two_pow (low.trans_le (Nat.pow_le_pow_right (by omega) (by omega)))
      simp [inByte, clear, Nat.le_of_not_lt inByte]
  rw [readU32Le, disjoint]
  apply UInt32.toNat_inj.mp
  rw [UInt32.toNat_xor, UInt32.toNat_ofNat', UInt32.toNat_ofNat', UInt8.toNat_toUInt32,
    Nat.xor_mod_two_pow, Nat.mod_eq_of_lt (byte.toNat_lt.trans (by norm_num))]

/-- **Bytes mixed in one after the other are a word mixed in at once.** -/
theorem foldl_crcByte_eq {window : Bytes} (short : window.length ≤ 4) (crc : UInt32) :
    window.foldl crcByte crc =
      Nat.repeat crcBit (8 * window.length) (crc ^^^ readU32Le window) := by
  induction window generalizing crc with
  | nil =>
      have zero : readU32Le [] = 0 := rfl
      rw [zero, UInt32.xor_zero]
      rfl
  | cons byte rest ih =>
      rw [List.length_cons] at short
      have fits : 2 ^ 8 * ofLeBytes rest < 2 ^ 32 := by
        have below := ofLeBytes_lt rest
        have power : 256 ^ rest.length ≤ 256 ^ 3 := Nat.pow_le_pow_right (by omega) (by omega)
        omega
      have moved : readU32Le rest =
          Nat.repeat crcBit 8 (UInt32.ofNat (2 ^ 8 * ofLeBytes rest)) :=
        (repeat_crcBit_mul 8 fits).symm
      rw [List.foldl_cons, ih (by omega), List.length_cons, Nat.mul_succ, repeat_add, crcByte, moved,
        ← repeat_crcBit_xor, readU32Le_cons, UInt32.xor_assoc]

/-- A window of at most four bytes is determined by the registers around it. -/
theorem foldl_crcByte_window {left right : Bytes} (sameLength : left.length = right.length)
    (short : left.length ≤ 4) {crc : UInt32}
    (same : left.foldl crcByte crc = right.foldl crcByte crc) : left = right := by
  rw [foldl_crcByte_eq short, foldl_crcByte_eq (sameLength ▸ short), sameLength] at same
  have words := (UInt32.xor_right_inj _).mp (repeat_injective crcBit_injective _ same)
  have small : ∀ bytes : Bytes, bytes.length ≤ 4 → ofLeBytes bytes < 2 ^ 32 := by
    intro bytes few
    have below := ofLeBytes_lt bytes
    have power : 256 ^ bytes.length ≤ 256 ^ 4 := Nat.pow_le_pow_right (by omega) few
    omega
  have numbers := congrArg UInt32.toNat words
  rw [readU32Le, readU32Le, UInt32.toNat_ofNat', UInt32.toNat_ofNat',
    Nat.mod_eq_of_lt (small left short), Nat.mod_eq_of_lt (small right (sameLength ▸ short))]
    at numbers
  exact ofLeBytes_injective sameLength numbers

/-! ## Bursts in a longer string -/

/-- Two byte strings agree outside the four bytes from a position on. -/
def AgreeOutside (start : Nat) (left right : Bytes) : Prop :=
  ∀ index, index < start ∨ start + 4 ≤ index → left[index]? = right[index]?

variable {start : Nat} {left right : Bytes}

theorem AgreeOutside.take_eq (agree : AgreeOutside start left right) {count : Nat}
    (before : count ≤ start) : left.take count = right.take count := by
  apply List.ext_getElem?
  intro index
  rw [List.getElem?_take, List.getElem?_take]
  split
  · exact agree index (.inl (by omega))
  · rfl

theorem AgreeOutside.drop (agree : AgreeOutside start left right) {count : Nat}
    (before : count ≤ start) :
    AgreeOutside (start - count) (left.drop count) (right.drop count) := by
  intro index outside
  rw [List.getElem?_drop, List.getElem?_drop]
  exact agree _ (by omega)

theorem AgreeOutside.drop_eq (agree : AgreeOutside start left right) :
    left.drop (start + 4) = right.drop (start + 4) := by
  apply List.ext_getElem?
  intro index
  rw [List.getElem?_drop, List.getElem?_drop]
  exact agree _ (.inr (Nat.le_add_right _ _))

/-- A string around a window. -/
theorem around_window (start : Nat) (bytes : Bytes) :
    bytes = bytes.take start ++ ((bytes.drop start).take 4 ++ bytes.drop (start + 4)) := by
  rw [← List.drop_drop, List.take_append_drop, List.take_append_drop]

/-- **A burst within four bytes changes the checksum.** -/
theorem crc32_burst (sameLength : left.length = right.length)
    (agree : AgreeOutside start left right) (same : crc32 left = crc32 right) : left = right := by
  have registers : left.foldl crcByte 0xFFFFFFFF = right.foldl crcByte 0xFFFFFFFF := by
    have complements := congrArg (fun crc => ~~~ crc) same
    simpa only [crc32, UInt32.not_not] using complements
  rw [around_window start left, around_window start right, agree.take_eq le_rfl, agree.drop_eq]
    at registers
  simp only [List.foldl_append] at registers
  have windows : (left.drop start).take 4 = (right.drop start).take 4 := by
    refine foldl_crcByte_window ?_ ?_ (foldl_crcByte_injective _ registers)
    · rw [List.length_take, List.length_take, List.length_drop, List.length_drop, sameLength]
    · exact List.length_take_le _ _
  rw [around_window start left, around_window start right, agree.take_eq le_rfl, agree.drop_eq, windows]

/-- **CRC32 detects every short burst.**  Two different byte strings of one length that
agree outside a window of four bytes have different checksums; and no byte string of a
record's length decodes if it differs from the record within four bytes of the body or
within the checksum field alone. -/
theorem short_bursts_detected :
    (∀ (left right : Bytes) (start : Nat), left.length = right.length → left ≠ right →
        AgreeOutside start left right → crc32 left ≠ crc32 right) ∧
      ∀ (operation : Operation) (bytes changed : Bytes) (start : Nat),
        encode operation = .ok bytes → changed.length = bytes.length → changed ≠ bytes →
          AgreeOutside start changed bytes → start = 0 ∨ checksumLen ≤ start →
            ∃ error, decode changed = .error error := by
  refine ⟨?_, ?_⟩
  · intro left right start sameLength different agree same
    exact different (crc32_burst sameLength agree same)
  · intro operation bytes changed start encoded sameLength different agree place
    cases decoded : decode changed with
    | error error => exact ⟨error, rfl⟩
    | ok other =>
        exfalso
        obtain ⟨-, rfl⟩ := encode_eq_ok_iff.mp encoded
        obtain ⟨-, rfl⟩ := eq_record_of_decode decoded
        refine different ?_
        have bodies : recordBody other = recordBody operation := by
          rcases place with rfl | inBody
          · have tails := agree.drop_eq
            rw [record, record] at tails
            simpa using tails
          · have fields := agree.take_eq inBody
            have rest := agree.drop inBody
            simp only [record, checksumLen, take_u32ToLeBytes_append,
              drop_u32ToLeBytes_append] at fields rest
            have checksums := congrArg readU32Le fields
            rw [readU32Le_u32ToLeBytes, readU32Le_u32ToLeBytes] at checksums
            refine crc32_burst ?_ rest checksums
            simpa only [record, List.length_append, length_u32ToLeBytes,
              Nat.add_left_cancel_iff] using sameLength
        rw [record, record, bodies]

/-- Three of four neighbouring bytes change, and the key of a record. -/
theorem short_bursts_detected_delete :
    crc32 [1, 2, 3, 4, 5, 6] ≠ crc32 [1, 3, 3, 6, 4, 6] ∧
      ∃ error, decode ((record (.delete [97])).set 13 98) = .error error := by
  obtain ⟨checksums, records⟩ := short_bursts_detected
  refine ⟨checksums _ _ 1 rfl (by decide) ?_, ?_⟩
  · intro index outside
    rcases outside with before | after
    · rw [Nat.lt_one_iff.mp before]
      rfl
    · obtain ⟨beyond, rfl⟩ := Nat.exists_eq_add_of_le' after
      rfl
  · refine records (.delete [97]) _ _ 13 (encode_of_fits (by decide)) List.length_set
      (by decide +kernel) ?_ (.inr (by decide))
    intro index outside
    exact List.getElem?_set_ne (by omega)

end LsmStore
