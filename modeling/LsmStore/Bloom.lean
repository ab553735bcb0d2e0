import LsmStore.Crc

/-!
# Bloom filters

Each table stores one filter so that a lookup can skip a table that does not
hold the key.  False positives are allowed; a key that was inserted is never
reported absent, also by a filter that was written and read back
(`BloomFilter.no_false_negatives`).  The sizing of a new
filter is a floating-point formula; here it is a parameter of which only the
bounds that the formula clamps to are known.
-/

set_option autoImplicit false

namespace LsmStore

/-- The floating-point sizing of a filter for a number of items and a target
false-positive rate, with the bounds the source clamps it to. -/
structure BloomSizing where
  bitCount : Nat → Float → Nat
  hashCount : Nat → Float → Nat
  bitCount_ge : ∀ items rate, 64 ≤ bitCount items rate
  hashCount_ge : ∀ items rate, 1 ≤ hashCount items rate
  hashCount_le : ∀ items rate, hashCount items rate ≤ 16

/-- A compact probabilistic set of keys. -/
structure BloomFilter where
  bits : Bytes
  hashCount : Nat
  deriving DecidableEq

/-- The 64-bit FNV-1a hash. -/
def fnv1a64 (bytes : Bytes) : UInt64 :=
  bytes.foldl (fun hash byte => (hash ^^^ byte.toUInt64) * 0x0100000001b3) 0xcbf29ce484222325

/-- The finalizer of the splitmix generator. -/
def splitmix (seed : UInt64) : UInt64 :=
  let x := seed + 0x9E3779B97F4A7C15
  let z := (x ^^^ (x >>> 30)) * 0xBF58476D1CE4E5B9
  let z := (z ^^^ (z >>> 27)) * 0x94D049BB133111EB
  z ^^^ (z >>> 31)

/-- The two hashes of a key. -/
def hashPair (key : Key) : UInt64 × UInt64 :=
  (fnv1a64 key, splitmix (fnv1a64 key ^^^ 0x9E3779B97F4A7C15))

/-- The bit that probe `i` of a key looks at, in a filter of `bitCount` bits. -/
def probe (bitCount : Nat) (key : Key) (i : Nat) : Nat :=
  let (h1, h2) := hashPair key
  (h1 + UInt64.ofNat i * h2).toNat % bitCount

/-- The mask of a bit inside its byte. -/
def bitMask (index : Nat) : UInt8 := 1 <<< UInt8.ofNat (index % 8)

/-- Sets one bit. -/
def setBit (bits : Bytes) (index : Nat) : Bytes :=
  bits.modify (index / 8) (· ||| bitMask index)

/-- Whether a bit is set. -/
def bitSet (bits : Bytes) (index : Nat) : Bool := bits.getD (index / 8) 0 &&& bitMask index != 0

namespace BloomFilter

/-- An empty filter sized for a number of items at a false-positive rate. -/
def new (sizing : BloomSizing) (expectedItems : Nat) (rate : Float) : BloomFilter :=
  let items := max expectedItems 1
  ⟨List.replicate ((sizing.bitCount items rate + 7) / 8) 0, sizing.hashCount items rate⟩

/-- Records a key. -/
def insert (filter : BloomFilter) (key : Key) : BloomFilter :=
  let bitCount := filter.bits.length * 8
  { filter with
    bits := (List.range filter.hashCount).foldl (fun bits i => setBit bits (probe bitCount key i))
      filter.bits }

/-- Whether a key might be present. -/
def mightContain (filter : BloomFilter) (key : Key) : Bool :=
  if filter.bits = [] then false
  else
    let bitCount := filter.bits.length * 8
    (List.range filter.hashCount).all fun i => bitSet filter.bits (probe bitCount key i)

/-- Records several keys in turn. -/
def insertAll (filter : BloomFilter) (keys : List Key) : BloomFilter := keys.foldl insert filter

/-- Serializes the filter: hash count, length of the bit array, bits, checksum. -/
def encode (filter : BloomFilter) : Bytes :=
  let out := lenToLeBytes filter.hashCount ++ lenToLeBytes filter.bits.length ++ filter.bits
  out ++ u32ToLeBytes (crc32 out)

/-- Restores a filter written by `encode`. -/
def decode (bytes : Bytes) : Except Error BloomFilter :=
  if bytes.length < 12 then .error .corruptedRecord
  else
    let hashCount := (readU32Le (bytes.take 4)).toNat
    let bitLen := (readU32Le ((bytes.drop 4).take 4)).toNat
    if hashCount = 0 ∨ hashCount > 16 then .error .corruptedRecord
    else if bytes.length ≠ 8 + bitLen + 4 then .error .corruptedRecord
    else if crc32 (bytes.take (8 + bitLen)) ≠ readU32Le (bytes.drop (8 + bitLen)) then
      .error .invalidChecksum
    else .ok ⟨(bytes.drop 8).take bitLen, hashCount⟩

end BloomFilter

/-! ## Bits -/

@[simp] theorem length_setBit (bits : Bytes) (index : Nat) :
    (setBit bits index).length = bits.length :=
  List.length_modify ..

theorem bitMask_ne_zero (index : Nat) : bitMask index ≠ 0 := by
  have small : index % 8 < 8 := Nat.mod_lt _ (by decide)
  unfold bitMask
  interval_cases index % 8 <;> decide

/-- Setting a bit keeps the bits that are set. -/
theorem bitSet_setBit_of_bitSet {bits : Bytes} {index other : Nat}
    (set : bitSet bits other = true) : bitSet (setBit bits index) other = true := by
  simp only [bitSet, setBit, bne_iff_ne, List.getD_eq_getElem?_getD, List.getElem?_modify] at set ⊢
  split
  · rename_i same
    rw [← same]
    cases found : bits[index / 8]? with
    | none =>
        rw [← same, found] at set
        simp at set
    | some byte =>
        rw [← same, found] at set
        simp only [Option.map_eq_map, Option.map_some, Option.getD_some] at set ⊢
        intro zero
        refine set ?_
        have both : (byte &&& bitMask other) ||| (bitMask index &&& bitMask other) = 0 := by
          rw [← zero]
          apply UInt8.toBitVec_inj.mp
          simp only [UInt8.toBitVec_or, UInt8.toBitVec_and]
          ext i
          simp [Bool.and_or_distrib_right]
        exact (UInt8.or_eq_zero_iff.mp both).1
  · simpa using set

/-- A bit inside the array is set once `setBit` has set it. -/
theorem bitSet_setBit_self {bits : Bytes} {index : Nat} (inside : index / 8 < bits.length) :
    bitSet (setBit bits index) index = true := by
  simp only [bitSet, setBit, bne_iff_ne, List.getD_eq_getElem?_getD, List.getElem?_modify_eq,
    List.getElem?_eq_getElem inside, Option.map_eq_map, Option.map_some, Option.getD_some]
  intro zero
  refine bitMask_ne_zero index ?_
  rw [← zero]
  apply UInt8.toBitVec_inj.mp
  simp only [UInt8.toBitVec_or, UInt8.toBitVec_and]
  ext i
  cases bit : (bitMask index).toBitVec[i] <;> simp [bit]

/-! ## No false negatives -/

theorem length_foldl_setBit (positions : Nat → Nat) (probes : List Nat) (bits : Bytes) :
    (probes.foldl (fun bits i => setBit bits (positions i)) bits).length = bits.length := by
  induction probes generalizing bits with
  | nil => rfl
  | cons first rest ih => rw [List.foldl_cons, ih, length_setBit]

theorem bitSet_foldl_of_bitSet (positions : Nat → Nat) (probes : List Nat) {bits : Bytes}
    {index : Nat} (set : bitSet bits index = true) :
    bitSet (probes.foldl (fun bits i => setBit bits (positions i)) bits) index = true := by
  induction probes generalizing bits with
  | nil => exact set
  | cons first rest ih => exact ih (bitSet_setBit_of_bitSet set)

theorem bitSet_foldl_of_mem (positions : Nat → Nat) {probes : List Nat} {bits : Bytes} {i : Nat}
    (member : i ∈ probes) (inside : ∀ j, positions j / 8 < bits.length) :
    bitSet (probes.foldl (fun bits i => setBit bits (positions i)) bits) (positions i) = true := by
  induction probes generalizing bits with
  | nil => cases member
  | cons first rest ih =>
      rw [List.foldl_cons]
      rcases List.mem_cons.mp member with rfl | later
      · exact bitSet_foldl_of_bitSet positions rest (bitSet_setBit_self (inside i))
      · exact ih later fun j => by rw [length_setBit]; exact inside j

theorem probe_div_lt {length : Nat} (nonempty : 0 < length) (key : Key) (i : Nat) :
    probe (length * 8) key i / 8 < length := by
  have inside : probe (length * 8) key i < length * 8 := Nat.mod_lt _ (by omega)
  omega

namespace BloomFilter

@[simp] theorem length_bits_insert (filter : BloomFilter) (key : Key) :
    (filter.insert key).bits.length = filter.bits.length :=
  length_foldl_setBit _ _ _

theorem mightContain_iff {filter : BloomFilter} (nonempty : 0 < filter.bits.length) {key : Key} :
    filter.mightContain key = true ↔
      ∀ i < filter.hashCount, bitSet filter.bits (probe (filter.bits.length * 8) key i) = true := by
  have present : filter.bits ≠ [] := List.ne_nil_of_length_pos nonempty
  rw [mightContain, if_neg present]
  simp

theorem mightContain_insert_self {filter : BloomFilter} (nonempty : 0 < filter.bits.length)
    (key : Key) : (filter.insert key).mightContain key = true := by
  rw [mightContain_iff (by rw [length_bits_insert]; exact nonempty)]
  intro i small
  rw [length_bits_insert]
  exact bitSet_foldl_of_mem _ (List.mem_range.mpr small) fun j => probe_div_lt nonempty key j

theorem mightContain_insert_of_mightContain {filter : BloomFilter}
    (nonempty : 0 < filter.bits.length) {key : Key} (other : Key)
    (found : filter.mightContain key = true) : (filter.insert other).mightContain key = true := by
  rw [mightContain_iff (by rw [length_bits_insert]; exact nonempty)]
  intro i small
  rw [length_bits_insert]
  exact bitSet_foldl_of_bitSet _ _ ((mightContain_iff nonempty).mp found i small)

@[simp] theorem length_bits_insertAll (filter : BloomFilter) (keys : List Key) :
    (filter.insertAll keys).bits.length = filter.bits.length := by
  induction keys generalizing filter with
  | nil => rfl
  | cons key rest ih => exact (ih (filter.insert key)).trans (length_bits_insert filter key)

@[simp] theorem hashCount_insertAll (filter : BloomFilter) (keys : List Key) :
    (filter.insertAll keys).hashCount = filter.hashCount := by
  induction keys generalizing filter with
  | nil => rfl
  | cons key rest ih => exact ih (filter.insert key)

/-- **No false negatives.** Every inserted key is reported as possibly present. -/
theorem mightContain_insertAll {filter : BloomFilter} (nonempty : 0 < filter.bits.length)
    {keys : List Key} {key : Key} (inserted : key ∈ keys) :
    (filter.insertAll keys).mightContain key = true := by
  have keeps : ∀ (rest : List Key) (start : BloomFilter), 0 < start.bits.length →
      start.mightContain key = true → (start.insertAll rest).mightContain key = true := by
    intro rest
    induction rest with
    | nil => exact fun _ _ found => found
    | cons other rest ih =>
        intro start positive found
        exact ih (start.insert other) (by rw [length_bits_insert]; exact positive)
          (mightContain_insert_of_mightContain positive other found)
  induction keys generalizing filter with
  | nil => cases inserted
  | cons first rest ih =>
      rcases List.mem_cons.mp inserted with rfl | later
      · exact keeps rest (filter.insert key) (by rw [length_bits_insert]; exact nonempty)
          (mightContain_insert_self nonempty key)
      · exact ih (by rw [length_bits_insert]; exact nonempty) later

/-- A new filter has bits to set. -/
theorem length_bits_new_pos (sizing : BloomSizing) (items : Nat) (rate : Float) :
    0 < (new sizing items rate).bits.length := by
  have enough := sizing.bitCount_ge (max items 1) rate
  simp only [new, List.length_replicate]
  omega

/-- **A filter survives writing and reading**, as long as its length fits the
32-bit field. -/
theorem decode_encode {filter : BloomFilter} (some_ : 1 ≤ filter.hashCount)
    (few : filter.hashCount ≤ 16) (fits : filter.bits.length < 2 ^ 32) :
    decode filter.encode = .ok filter := by
  have hashes : (readU32Le (filter.encode.take 4)).toNat = filter.hashCount := by
    rw [encode, List.append_assoc, List.append_assoc, ← length_lenToLeBytes filter.hashCount,
      List.take_left, toNat_readU32Le_lenToLeBytes (by omega)]
  have bitLen : (readU32Le ((filter.encode.drop 4).take 4)).toNat = filter.bits.length := by
    rw [encode, List.append_assoc, List.append_assoc, ← length_lenToLeBytes filter.hashCount,
      List.drop_left, length_lenToLeBytes, ← length_lenToLeBytes filter.bits.length,
      List.take_left, toNat_readU32Le_lenToLeBytes fits]
  have length : filter.encode.length = 8 + filter.bits.length + 4 := by
    simp only [encode, List.length_append, length_lenToLeBytes, length_u32ToLeBytes]
  have outLength : (lenToLeBytes filter.hashCount ++ lenToLeBytes filter.bits.length ++
      filter.bits).length = 8 + filter.bits.length := by
    simp only [List.length_append, length_lenToLeBytes]
  have body : filter.encode.take (8 + filter.bits.length) =
      lenToLeBytes filter.hashCount ++ lenToLeBytes filter.bits.length ++ filter.bits := by
    rw [encode, ← outLength, List.take_left]
  have checksum : filter.encode.drop (8 + filter.bits.length) = u32ToLeBytes
      (crc32 (lenToLeBytes filter.hashCount ++ lenToLeBytes filter.bits.length ++ filter.bits)) := by
    rw [encode, ← outLength, List.drop_left]
  have bits : (filter.encode.drop 8).take filter.bits.length = filter.bits := by
    have same := congrArg (List.drop 8) body
    rw [List.drop_take, Nat.add_sub_cancel_left] at same
    rw [same, List.drop_append_of_le_length (by simp)]
    simp [List.drop_eq_nil_of_le]
  rw [decode]
  simp only [hashes, bitLen, body, checksum, bits, readU32Le_u32ToLeBytes]
  rw [if_neg (by omega), if_neg (by omega), if_neg (by omega), if_neg (by simp)]

/-- **No false negatives through the life of a filter.**  Take a filter with bits and 1
to 16 hashes.  Whatever keys are inserted and in whatever order, each of them is then
reported as possibly present.  If the bit array is shorter than `2 ^ 32` bytes, the
filter is restored from its encoding with the same bits and hash count, and so is what
the insertions make of it, which still reports the inserted keys. -/
theorem no_false_negatives {filter : BloomFilter} (nonempty : filter.bits ≠ [])
    (some_ : 1 ≤ filter.hashCount) (few : filter.hashCount ≤ 16) :
    (∀ keys order : List Key, order.Perm keys → ∀ key ∈ keys,
        (filter.insertAll order).mightContain key = true) ∧
      (filter.bits.length < 2 ^ 32 →
        decode filter.encode = .ok filter ∧
        ∀ keys : List Key, ∃ restored, decode (filter.insertAll keys).encode = .ok restored ∧
          restored.bits = (filter.insertAll keys).bits ∧
          restored.hashCount = (filter.insertAll keys).hashCount ∧
          ∀ key ∈ keys, restored.mightContain key = true) := by
  have positive : 0 < filter.bits.length := List.length_pos_of_ne_nil nonempty
  refine ⟨?_, fun short => ⟨decode_encode some_ few short, ?_⟩⟩
  · intro keys order perm key inserted
    exact mightContain_insertAll positive (perm.mem_iff.mpr inserted)
  · intro keys
    refine ⟨filter.insertAll keys, ?_, rfl, rfl, ?_⟩
    · apply decode_encode
      · rw [hashCount_insertAll]
        exact some_
      · rw [hashCount_insertAll]
        exact few
      · rw [length_bits_insertAll]
        exact short
    · exact fun key inserted => mightContain_insertAll positive inserted

/-- Two keys in a filter of eight bytes. -/
theorem no_false_negatives_two_keys :
    ∃ restored, decode ((⟨List.replicate 8 0, 3⟩ : BloomFilter).insertAll [[1], [2]]).encode =
        .ok restored ∧ restored.mightContain [1] = true := by
  obtain ⟨_, survives⟩ := @no_false_negatives ⟨List.replicate 8 0, 3⟩ (by decide) (by decide)
    (by decide)
  obtain ⟨restored, decoded, _, _, holds⟩ := (survives (by decide)).2 [[1], [2]]
  exact ⟨restored, decoded, holds [1] (by decide)⟩

end BloomFilter

end LsmStore
