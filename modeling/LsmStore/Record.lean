import LsmStore.Crc

/-!
# The record format

Every mutation is an operation, and a record is its checksummed encoding:
checksum, type, key length, value length, key, value.  Encoding succeeds
exactly for operations within the size limits, and then decoding returns the
operation.  Conversely every byte string that decodes is the encoding of the
operation it decodes to, so the accepted records are exactly the image of the
encoder.
-/

set_option autoImplicit false

namespace LsmStore

open Foundation

/-- A single mutation to the store. -/
inductive Operation where
  | put (key value : Bytes)
  | delete (key : Bytes)
  deriving DecidableEq

/-- The key an operation writes. -/
def Operation.key : Operation → Key
  | .put key _ => key
  | .delete key => key

/-- The value bytes an operation carries; a delete carries none. -/
def Operation.value : Operation → Bytes
  | .put _ value => value
  | .delete _ => []

def recordTypePut : UInt8 := 1
def recordTypeDelete : UInt8 := 2

/-- Bytes reserved for the leading CRC32 checksum. -/
def checksumLen : Nat := 4

/-- Bytes of the checksummed header: record type, key length, value length. -/
def bodyHeaderLen : Nat := 1 + 4 + 4

/-- The smallest record: checksum and body header, with empty key and value. -/
def recordHeaderLen : Nat := checksumLen + bodyHeaderLen

/-- Offset of the key-length field within a record. -/
def keyLenOffset : Nat := 5

/-- Offset of the value-length field within a record. -/
def valueLenOffset : Nat := 9

/-- The record type byte of an operation. -/
def Operation.recordType : Operation → UInt8
  | .put _ _ => recordTypePut
  | .delete _ => recordTypeDelete

/-- Everything the checksum of a record covers. -/
def recordBody (operation : Operation) : Bytes :=
  operation.recordType :: (lenToLeBytes operation.key.length ++
    lenToLeBytes operation.value.length ++ operation.key ++ operation.value)

/-- Encodes an operation into its byte record. -/
def encode (operation : Operation) : Except Error Bytes :=
  if operation.key.length > maxKeySize then .error .keyTooLarge
  else if operation.value.length > maxValueSize then .error .valueTooLarge
  else
    let body := recordBody operation
    .ok (u32ToLeBytes (crc32 body) ++ body)

/-- Decodes a byte record back into an operation, validating it fully. -/
def decode (bytes : Bytes) : Except Error Operation :=
  if bytes.length < recordHeaderLen then .error .corruptedRecord
  else
    let checksum := readU32Le (bytes.take checksumLen)
    let body := bytes.drop checksumLen
    let recordType := body.headD 0
    let keyLen := (readU32Le ((body.drop 1).take 4)).toNat
    let valueLen := (readU32Le ((body.drop 5).take 4)).toNat
    -- Oversized lengths are rejected before they size the payload.
    if keyLen > maxKeySize ∨ valueLen > maxValueSize then .error .corruptedRecord
    else if body.length ≠ bodyHeaderLen + keyLen + valueLen then .error .corruptedRecord
    else if crc32 body ≠ checksum then .error .invalidChecksum
    else
      let key := (body.drop bodyHeaderLen).take keyLen
      let value := (body.drop (bodyHeaderLen + keyLen)).take valueLen
      if recordType = recordTypePut then .ok (.put key value)
      else if recordType = recordTypeDelete then
        -- A delete must not carry a value.
        if valueLen ≠ 0 then .error .corruptedRecord else .ok (.delete key)
      else .error .corruptedRecord

/-- The key length a record's header declares. -/
def declaredKeyLen (data : Bytes) : Nat := (readU32Le ((data.drop keyLenOffset).take 4)).toNat

/-- The value length a record's header declares. -/
def declaredValueLen (data : Bytes) : Nat := (readU32Le ((data.drop valueLenOffset).take 4)).toNat

/-- The sizes an operation must have to be written to a record. -/
def Operation.Fits (operation : Operation) : Prop :=
  operation.key.length ≤ maxKeySize ∧ operation.value.length ≤ maxValueSize

instance (operation : Operation) : Decidable operation.Fits :=
  inferInstanceAs (Decidable (_ ∧ _))

/-- The record of an operation within the size limits. -/
def record (operation : Operation) : Bytes :=
  u32ToLeBytes (crc32 (recordBody operation)) ++ recordBody operation

/-! ## Encoding -/

theorem encode_of_fits {operation : Operation} (fits : operation.Fits) :
    encode operation = .ok (record operation) := by
  rw [encode, if_neg (Nat.not_lt.mpr fits.1), if_neg (Nat.not_lt.mpr fits.2)]
  rfl

/-- **Encoding succeeds exactly for operations within the size limits.** -/
theorem encode_eq_ok_iff {operation : Operation} {bytes : Bytes} :
    encode operation = .ok bytes ↔ operation.Fits ∧ bytes = record operation := by
  constructor
  · intro encoded
    have fits : operation.Fits := by
      unfold encode at encoded
      split at encoded
      · cases encoded
      · split at encoded
        · cases encoded
        · exact ⟨by omega, by omega⟩
    rw [encode_of_fits fits] at encoded
    exact ⟨fits, (Except.ok.inj encoded).symm⟩
  · rintro ⟨fits, rfl⟩
    exact encode_of_fits fits

theorem length_recordBody (operation : Operation) :
    (recordBody operation).length =
      bodyHeaderLen + operation.key.length + operation.value.length := by
  simp only [recordBody, List.length_cons, List.length_append, length_lenToLeBytes,
    bodyHeaderLen]
  omega

theorem length_record (operation : Operation) :
    (record operation).length =
      recordHeaderLen + operation.key.length + operation.value.length := by
  simp only [record, List.length_append, length_u32ToLeBytes, length_recordBody,
    recordHeaderLen, checksumLen]
  omega

theorem Operation.Fits.key_lt {operation : Operation} (fits : operation.Fits) :
    operation.key.length < 2 ^ 32 :=
  lt_of_le_of_lt fits.1 (by decide)

theorem Operation.Fits.value_lt {operation : Operation} (fits : operation.Fits) :
    operation.value.length < 2 ^ 32 :=
  lt_of_le_of_lt fits.2 (by decide)

/-- The header of a record, followed by anything, declares the key's length. -/
theorem declaredKeyLen_record {operation : Operation} (fits : operation.Fits) (rest : Bytes) :
    declaredKeyLen (record operation ++ rest) = operation.key.length := by
  have field : ((record operation ++ rest).drop keyLenOffset).take 4 =
      lenToLeBytes operation.key.length := by
    simp [record, recordBody, keyLenOffset, List.drop_append, List.take_append]
  rw [declaredKeyLen, field, toNat_readU32Le_lenToLeBytes fits.key_lt]

/-- The header of a record, followed by anything, declares the value's length. -/
theorem declaredValueLen_record {operation : Operation} (fits : operation.Fits) (rest : Bytes) :
    declaredValueLen (record operation ++ rest) = operation.value.length := by
  have field : ((record operation ++ rest).drop valueLenOffset).take 4 =
      lenToLeBytes operation.value.length := by
    simp [record, recordBody, valueLenOffset, List.drop_append, List.take_append]
  rw [declaredValueLen, field, toNat_readU32Le_lenToLeBytes fits.value_lt]

/-! ## Decoding -/

/-- A body of full header length is its type byte, its two length fields and
its payload. -/
theorem body_eq_fields {body : Bytes} (header : bodyHeaderLen ≤ body.length) :
    body = body.headD 0 :: ((body.drop 1).take 4 ++ (body.drop 5).take 4 ++
      body.drop bodyHeaderLen) := by
  cases body with
  | nil => simp [bodyHeaderLen] at header
  | cons recordType fields =>
      have split : fields = fields.take 4 ++ ((fields.drop 4).take 4 ++ (fields.drop 4).drop 4) := by
        rw [List.take_append_drop, List.take_append_drop]
      rw [List.drop_drop] at split
      simpa only [List.headD_cons, List.drop_succ_cons, List.drop_zero, List.append_assoc,
        bodyHeaderLen, List.cons.injEq, true_and] using split

/-- A body whose two length fields cover exactly its payload is the body of the
operation with its type, key and value. -/
theorem eq_recordBody {body : Bytes} {operation : Operation} {keyLen valueLen : Nat}
    (keyLenIs : (readU32Le ((body.drop 1).take 4)).toNat = keyLen)
    (valueLenIs : (readU32Le ((body.drop 5).take 4)).toNat = valueLen)
    (exactLength : body.length = bodyHeaderLen + keyLen + valueLen)
    (type : operation.recordType = body.headD 0)
    (key : operation.key = (body.drop bodyHeaderLen).take keyLen)
    (value : operation.value = (body.drop (bodyHeaderLen + keyLen)).take valueLen) :
    body = recordBody operation := by
  have header : bodyHeaderLen ≤ body.length := by omega
  have nine : 9 ≤ body.length := header
  have keyField : lenToLeBytes keyLen = (body.drop 1).take 4 := by
    rw [← keyLenIs]
    exact lenToLeBytes_readU32Le (by rw [List.length_take, List.length_drop]; omega)
  have valueField : lenToLeBytes valueLen = (body.drop 5).take 4 := by
    rw [← valueLenIs]
    exact lenToLeBytes_readU32Le (by rw [List.length_take, List.length_drop]; omega)
  have keyLength : operation.key.length = keyLen := by
    rw [key, List.length_take, List.length_drop]
    omega
  have valueLength : operation.value.length = valueLen := by
    rw [value, List.length_take, List.length_drop]
    omega
  have payload : body.drop bodyHeaderLen = operation.key ++ operation.value := by
    rw [value, List.take_of_length_le (by rw [List.length_drop]; omega), key, ← List.drop_drop,
      List.take_append_drop]
  rw [recordBody, keyLength, valueLength, keyField, valueField, type, List.append_assoc, ← payload]
  exact body_eq_fields header

/-- **Decoding undoes encoding.** -/
theorem decode_record {operation : Operation} (fits : operation.Fits) :
    decode (record operation) = .ok operation := by
  have bodyField : (record operation).drop checksumLen = recordBody operation := by
    rw [record, checksumLen, ← length_u32ToLeBytes (crc32 (recordBody operation)),
      List.drop_left]
  have checksumField : (record operation).take checksumLen =
      u32ToLeBytes (crc32 (recordBody operation)) := by
    rw [record, checksumLen, ← length_u32ToLeBytes (crc32 (recordBody operation)),
      List.take_left]
  have keyField : ((recordBody operation).drop 1).take 4 = lenToLeBytes operation.key.length := by
    simp [recordBody]
  have valueField : ((recordBody operation).drop 5).take 4 =
      lenToLeBytes operation.value.length := by
    simp [recordBody]
  have keyBytes : ((recordBody operation).drop bodyHeaderLen).take operation.key.length =
      operation.key := by
    simp [recordBody, bodyHeaderLen, List.drop_append, List.take_append]
  have valueBytes : ((recordBody operation).drop (bodyHeaderLen + operation.key.length)).take
      operation.value.length = operation.value := by
    have payload : (recordBody operation).drop bodyHeaderLen =
        operation.key ++ operation.value := by
      simp [recordBody, bodyHeaderLen, List.drop_append]
    rw [← List.drop_drop, payload, List.drop_left, List.take_length]
  have long : ¬ (record operation).length < recordHeaderLen := by
    rw [length_record]
    omega
  simp only [decode, if_neg long, bodyField, checksumField, readU32Le_u32ToLeBytes, keyField,
    valueField, toNat_readU32Le_lenToLeBytes fits.key_lt,
    toNat_readU32Le_lenToLeBytes fits.value_lt, length_recordBody, keyBytes, valueBytes]
  rw [if_neg (by have := fits.1; have := fits.2; omega), if_neg (by simp), if_neg (by simp)]
  cases operation with
  | put key value => rfl
  | delete key => rfl

/-- **A byte string that decodes is the record of the operation it decodes to.** -/
theorem eq_record_of_decode {bytes : Bytes} {operation : Operation}
    (decoded : decode bytes = .ok operation) : operation.Fits ∧ bytes = record operation := by
  unfold decode at decoded
  dsimp only at decoded
  split at decoded
  · cases decoded
  rename_i long
  generalize bodyIs : bytes.drop checksumLen = body at decoded
  generalize keyLenIs : (readU32Le ((body.drop 1).take 4)).toNat = keyLen at decoded
  generalize valueLenIs : (readU32Le ((body.drop 5).take 4)).toNat = valueLen at decoded
  split at decoded
  · cases decoded
  rename_i withinLimits
  split at decoded
  · cases decoded
  rename_i exactLength
  split at decoded
  · cases decoded
  rename_i checksum
  push Not at withinLimits exactLength checksum
  have whole : bytes = u32ToLeBytes (crc32 body) ++ body := by
    have four : (bytes.take checksumLen).length = 4 := by
      simp only [recordHeaderLen, checksumLen, bodyHeaderLen] at long
      simp only [List.length_take, checksumLen]
      omega
    rw [checksum, u32ToLeBytes_readU32Le four, ← bodyIs, List.take_append_drop]
  -- Both record types leave the same three equations between the body and its fields.
  have ofFields : ∀ candidate : Operation, candidate.recordType = body.headD 0 →
      candidate.key = (body.drop bodyHeaderLen).take keyLen →
      candidate.value = (body.drop (bodyHeaderLen + keyLen)).take valueLen →
      candidate.Fits ∧ bytes = record candidate := by
    intro candidate type key value
    refine ⟨⟨?_, ?_⟩, ?_⟩
    · rw [key, List.length_take]
      exact le_trans (min_le_left _ _) withinLimits.1
    · rw [value, List.length_take]
      exact le_trans (min_le_left _ _) withinLimits.2
    · rw [whole, record, eq_recordBody keyLenIs valueLenIs exactLength type key value]
  split at decoded
  · rename_i type
    cases decoded
    exact ofFields _ type.symm rfl rfl
  · split at decoded
    · rename_i type
      split at decoded
      · cases decoded
      · rename_i noValue
        cases decoded
        refine ofFields _ type.symm rfl ?_
        rw [not_not.mp noValue, List.take_zero]
        rfl
    · cases decoded

/-- Decoding and encoding are each other's inverse. -/
theorem decode_eq_ok_iff {bytes : Bytes} {operation : Operation} :
    decode bytes = .ok operation ↔ encode operation = .ok bytes := by
  rw [encode_eq_ok_iff]
  constructor
  · exact eq_record_of_decode
  · rintro ⟨fits, rfl⟩
    exact decode_record fits

/-- **The codec is a bijection onto the accepted records.**  Encoding succeeds
exactly within the size limits and is undone by decoding; a byte string that
decodes is what encoding returns for the operation, so decoding accepts exactly
the image of the encoder. -/
theorem record_codec_bijective :
    (∀ operation, (∃ bytes, encode operation = .ok bytes) ↔
      operation.key.length ≤ maxKeySize ∧ operation.value.length ≤ maxValueSize) ∧
    (∀ operation bytes, encode operation = .ok bytes → decode bytes = .ok operation) ∧
    (∀ bytes operation, decode bytes = .ok operation → encode operation = .ok bytes) ∧
    ∀ bytes, (∃ operation, decode bytes = .ok operation) ↔
      ∃ operation, encode operation = .ok bytes := by
  refine ⟨fun operation => ⟨?_, fun fits => ⟨_, encode_of_fits fits⟩⟩,
    fun operation bytes => decode_eq_ok_iff.mpr, fun bytes operation => decode_eq_ok_iff.mp,
    fun bytes => exists_congr fun operation => decode_eq_ok_iff⟩
  rintro ⟨bytes, encoded⟩
  exact (encode_eq_ok_iff.mp encoded).1

end LsmStore
