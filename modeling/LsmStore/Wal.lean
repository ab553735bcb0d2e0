import LsmStore.Record

/-!
# The write-ahead log

The log is a byte file.  Appending writes one record at its end, and replay
frames records from the length fields it reads, before any checksum is
verified.  A byte string replays to the operations `ops` exactly when it is the
concatenation of their records followed by a tail that the iterator takes for a
torn record (`replay_eq_ok_iff`).

Two consequences are drawn from that characterisation.  After a torn tail,
appended records are replayed only when the log happens to read the same with
the fragment in front as behind (`torn_log_replays_appended_iff`), because
opening the log does not cut the fragment off.  A damaged byte before the last
record is reported unless it hits a length field and the new length runs past
the end of the log or frames another valid log
(`corruption_reported_iff`).
-/

set_option autoImplicit false

namespace LsmStore

open Foundation

/-- An append-only log backed by a single file; every operation seeks before it
reads or writes, so the file's contents are its whole state. -/
structure Wal where
  contents : Bytes
  deriving DecidableEq

namespace Wal

/-- Opens the log, creating it if it does not exist; the contents are kept as
they are. -/
def openLog (file : Option Bytes) : Wal := ⟨file.getD []⟩

/-- Encodes `operation` and writes it at the end of the log, returning the
offset at which the record begins. -/
def append (wal : Wal) (operation : Operation) : Except Error (Nat × Wal) :=
  match encode operation with
  | .error cause => .error cause
  | .ok bytes => .ok (wal.contents.length, ⟨wal.contents ++ bytes⟩)

/-- Empties the log. -/
def truncate (_wal : Wal) : Wal := ⟨[]⟩

end Wal

/-- Streaming parser over a log buffer. -/
structure WalIterator where
  data : Bytes
  pos : Nat

/-- One committed operation, an error, or the end of the log. -/
def WalIterator.next (iter : WalIterator) : Option (Except Error Operation) × WalIterator :=
  let data := iter.data.drop iter.pos
  if data = [] then (none, iter)
  else if data.length < recordHeaderLen then
    -- Torn final header: ignore the unacknowledged fragment.
    (none, { iter with pos := iter.data.length })
  else
    let keyLen := declaredKeyLen data
    let valueLen := declaredValueLen data
    if keyLen > maxKeySize ∨ valueLen > maxValueSize then
      (some (.error .corruptedRecord), { iter with pos := iter.data.length })
    else
      let recordLen := recordHeaderLen + keyLen + valueLen
      if data.length < recordLen then
        -- Torn final payload: ignore the unacknowledged fragment.
        (none, { iter with pos := iter.data.length })
      else (some (decode (data.take recordLen)), { iter with pos := iter.pos + recordLen })

/-- Collects the items of the iterator up to the first error.  Every item but
the last consumes a record header, so one more step than there are bytes is
enough. -/
def WalIterator.collect : Nat → WalIterator → Except Error (List Operation)
  | 0, _ => .ok []
  | fuel + 1, iter =>
      match iter.next with
      | (none, _) => .ok []
      | (some (.error cause), _) => .error cause
      | (some (.ok operation), iter) => (collect fuel iter).map (operation :: ·)

/-- Every committed operation of the log, in the order it was written. -/
def replay (data : Bytes) : Except Error (List Operation) :=
  WalIterator.collect (data.length + 1) ⟨data, 0⟩

def Wal.replay (wal : Wal) : Except Error (List Operation) := LsmStore.replay wal.contents

/-- Appends every operation in turn. -/
def Wal.appendAll (wal : Wal) : List Operation → Except Error Wal
  | [] => .ok wal
  | operation :: rest =>
      match wal.append operation with
      | .error cause => .error cause
      | .ok (_, wal) => wal.appendAll rest

/-- The concatenated records of a list of operations. -/
def records (operations : List Operation) : Bytes := operations.flatMap record

/-- The bytes the iterator takes for the end of the log: nothing, part of a
header, or a header whose declared payload is not all there. -/
def IsTorn (data : Bytes) : Prop :=
  data.length < recordHeaderLen ∨
    (declaredKeyLen data ≤ maxKeySize ∧ declaredValueLen data ≤ maxValueSize ∧
      data.length < recordHeaderLen + declaredKeyLen data + declaredValueLen data)

instance (data : Bytes) : Decidable (IsTorn data) := inferInstanceAs (Decidable (_ ∨ _))

/-! ## Replay, one frame at a time -/

namespace WalIterator

/-- The bytes the iterator has not consumed. -/
def rest (iter : WalIterator) : Bytes := iter.data.drop iter.pos

/-- The next item depends on the unconsumed bytes only, and so do the bytes
left after it. -/
theorem next_congr {left right : WalIterator} (same : left.rest = right.rest) :
    left.next.1 = right.next.1 ∧ left.next.2.rest = right.next.2.rest := by
  obtain ⟨leftData, leftPos⟩ := left
  obtain ⟨rightData, rightPos⟩ := right
  simp only [rest] at same
  simp only [next, same, rest]
  split_ifs
  · exact ⟨rfl, same⟩
  · exact ⟨rfl, by simp only [List.drop_length]⟩
  · exact ⟨rfl, by simp only [List.drop_length]⟩
  · exact ⟨rfl, by simp only [List.drop_length]⟩
  · exact ⟨rfl, by simp only [← List.drop_drop, same]⟩

/-- An item consumes at least a record header. -/
theorem next_shrinks {iter : WalIterator} {operation : Operation}
    (item : iter.next.1 = some (.ok operation)) : iter.next.2.rest.length < iter.rest.length := by
  unfold next at item ⊢
  dsimp only at item ⊢
  split_ifs at item ⊢ with empty short big torn
  · cases item
  · simp only [rest, List.length_drop, recordHeaderLen, checksumLen, bodyHeaderLen] at short ⊢
    omega

/-- Enough fuel gives the same collection, whatever the buffer the unconsumed
bytes sit in. -/
theorem collect_congr {fuel fuel' : Nat} : ∀ {left right : WalIterator},
    left.rest = right.rest → left.rest.length < fuel → left.rest.length < fuel' →
      collect fuel left = collect fuel' right := by
  induction fuel generalizing fuel' with
  | zero => intro left right _ enough; exact absurd enough (Nat.not_lt_zero _)
  | succ fuel ih =>
      intro left right same enough enough'
      obtain ⟨fuel', rfl⟩ : ∃ more, fuel' = more + 1 := ⟨fuel' - 1, by omega⟩
      obtain ⟨sameItem, sameRest⟩ := next_congr same
      have shrinks := @next_shrinks left
      revert sameItem sameRest shrinks
      simp only [collect]
      rcases left.next with ⟨item, leftAfter⟩
      rcases right.next with ⟨item', rightAfter⟩
      rintro rfl sameRest shrinks
      match item with
      | none => rfl
      | some (.error cause) => rfl
      | some (.ok operation) =>
          have fewer := shrinks rfl
          dsimp only at fewer sameRest ⊢
          rw [@ih fuel' _ _ sameRest (by omega) (by omega)]

end WalIterator

theorem replay_of_isTorn {data : Bytes} (torn : IsTorn data) : replay data = .ok [] := by
  have ended : (WalIterator.next ⟨data, 0⟩).1 = none := by
    simp only [WalIterator.next, List.drop_zero]
    rcases torn with short | ⟨keyBound, valueBound, short⟩
    · rw [if_pos short]
      split_ifs <;> rfl
    · have withinLimits : ¬ (declaredKeyLen data > maxKeySize ∨ declaredValueLen data > maxValueSize) := by
        omega
      simp only [if_neg withinLimits, if_pos short]
      split_ifs <;> rfl
  rw [replay, WalIterator.collect]
  split
  · rfl
  · simp_all
  · simp_all

/-- A length beyond its limit is corruption. -/
theorem replay_of_oversized {data : Bytes} (header : recordHeaderLen ≤ data.length)
    (oversized : maxKeySize < declaredKeyLen data ∨ maxValueSize < declaredValueLen data) :
    replay data = .error .corruptedRecord := by
  have nonempty : data ≠ [] := by
    rintro rfl
    simp [recordHeaderLen, checksumLen, bodyHeaderLen] at header
  simp only [replay, WalIterator.collect, WalIterator.next, List.drop_zero, if_neg nonempty,
    if_neg (Nat.not_lt.mpr header)]
  rw [if_pos oversized]

/-- A frame that lies inside the data is decoded, and replay goes on behind it. -/
theorem replay_of_frame {data : Bytes} (header : recordHeaderLen ≤ data.length)
    (keyBound : declaredKeyLen data ≤ maxKeySize)
    (valueBound : declaredValueLen data ≤ maxValueSize)
    (inside : recordHeaderLen + declaredKeyLen data + declaredValueLen data ≤ data.length) :
    replay data =
      match decode (data.take (recordHeaderLen + declaredKeyLen data + declaredValueLen data)) with
      | .error cause => .error cause
      | .ok operation =>
          (replay (data.drop
            (recordHeaderLen + declaredKeyLen data + declaredValueLen data))).map (operation :: ·) := by
  generalize lenIs : recordHeaderLen + declaredKeyLen data + declaredValueLen data = len at inside ⊢
  have nonempty : data ≠ [] := by
    rintro rfl
    simp [recordHeaderLen, checksumLen, bodyHeaderLen] at header
  have item : WalIterator.next ⟨data, 0⟩ = (some (decode (data.take len)), ⟨data, len⟩) := by
    simp only [WalIterator.next, List.drop_zero, if_neg nonempty, if_neg (Nat.not_lt.mpr header),
      lenIs, if_neg (Nat.not_lt.mpr inside), Nat.zero_add]
    rw [if_neg (by omega)]
  rw [replay, WalIterator.collect, item]
  cases decode (data.take len) with
  | error cause => rfl
  | ok operation =>
      dsimp only
      rw [replay]
      have positive : 0 < len := by
        rw [← lenIs, recordHeaderLen, checksumLen]
        omega
      rw [@WalIterator.collect_congr _ ((data.drop len).length + 1) _ ⟨data.drop len, 0⟩
        (by simp [WalIterator.rest])]
      · simp only [WalIterator.rest, List.length_drop]
        omega
      · simp only [WalIterator.rest, List.length_drop]
        omega

/-- **Replay reads one record at a time.** -/
theorem replay_record_append {operation : Operation} (fits : operation.Fits) (rest : Bytes) :
    replay (record operation ++ rest) = (replay rest).map (operation :: ·) := by
  have keyLen := declaredKeyLen_record fits rest
  have valueLen := declaredValueLen_record fits rest
  have length := length_record operation
  have total : (record operation ++ rest).length =
      recordHeaderLen + operation.key.length + operation.value.length + rest.length := by
    rw [List.length_append, length]
  rw [replay_of_frame (by omega) (by rw [keyLen]; exact fits.1) (by rw [valueLen]; exact fits.2)
    (by omega), keyLen, valueLen, ← length, List.take_left, List.drop_left, decode_record fits]

/-- A log of complete records replays to their operations, followed by what the
rest of the log replays to. -/
theorem replay_records_append {operations : List Operation}
    (fit : ∀ operation ∈ operations, operation.Fits) (rest : Bytes) :
    replay (records operations ++ rest) = (replay rest).map (operations ++ ·) := by
  induction operations with
  | nil =>
      simp only [records, List.flatMap_nil, List.nil_append]
      cases replay rest <;> rfl
  | cons operation operations ih =>
      have first := fit operation List.mem_cons_self
      have others := fun later member => fit later (List.mem_cons_of_mem operation member)
      rw [records, List.flatMap_cons, List.append_assoc, replay_record_append first,
        ← records, ih others]
      cases replay rest <;> rfl

theorem length_records_cons (operation : Operation) (operations : List Operation) :
    (records (operation :: operations)).length =
      (record operation).length + (records operations).length := by
  rw [records, List.flatMap_cons, List.length_append, ← records]

/-- **What a log replays to.** The bytes are the records of the operations,
followed by a tail taken for a torn record. -/
theorem replay_eq_ok_iff {data : Bytes} {operations : List Operation} :
    replay data = .ok operations ↔
      (∀ operation ∈ operations, operation.Fits) ∧
        ∃ tail, data = records operations ++ tail ∧ IsTorn tail := by
  constructor
  · -- Strong induction on the number of bytes left, one frame at a time.
    induction bound : data.length using Nat.strong_induction_on generalizing data operations with
    | _ length ih =>
      intro replayed
      by_cases torn : IsTorn data
      · rw [replay_of_isTorn torn] at replayed
        cases replayed
        exact ⟨by simp, data, rfl, torn⟩
      · have header : recordHeaderLen ≤ data.length := by
          unfold IsTorn at torn
          omega
        by_cases oversized : maxKeySize < declaredKeyLen data ∨ maxValueSize < declaredValueLen data
        · rw [replay_of_oversized header oversized] at replayed
          cases replayed
        · unfold IsTorn at torn
          push Not at oversized
          have inside : recordHeaderLen + declaredKeyLen data + declaredValueLen data ≤
              data.length := by
            omega
          rw [replay_of_frame header oversized.1 oversized.2 inside] at replayed
          generalize lenIs : recordHeaderLen + declaredKeyLen data + declaredValueLen data = len
            at inside replayed
          cases decoded : decode (data.take len) with
          | error cause => rw [decoded] at replayed; cases replayed
          | ok operation =>
              rw [decoded] at replayed
              dsimp only at replayed
              cases others : replay (data.drop len) with
              | error cause => rw [others] at replayed; cases replayed
              | ok later =>
                  rw [others] at replayed
                  cases replayed
                  obtain ⟨fits, isRecord⟩ := eq_record_of_decode decoded
                  have positive : 0 < recordHeaderLen := by decide
                  obtain ⟨laterFit, tail, laterData, tailTorn⟩ :=
                    ih (data.drop len).length (by rw [List.length_drop]; omega) rfl others
                  refine ⟨by simpa using ⟨fits, laterFit⟩, tail, ?_, tailTorn⟩
                  rw [records, List.flatMap_cons, ← records, List.append_assoc, ← laterData,
                    ← isRecord, List.take_append_drop]
  · rintro ⟨fit, tail, rfl, torn⟩
    rw [replay_records_append fit, replay_of_isTorn torn]
    simp [Except.map]

/-! ## Appending behind a torn tail -/

theorem Wal.append_eq_ok_iff {wal : Wal} {operation : Operation} {offset : Nat} {wal' : Wal} :
    wal.append operation = .ok (offset, wal') ↔
      operation.Fits ∧ offset = wal.contents.length ∧ wal' = ⟨wal.contents ++ record operation⟩ := by
  by_cases fits : operation.Fits
  · rw [Wal.append, encode_of_fits fits]
    simp only [Except.ok.injEq, Prod.mk.injEq, fits, true_and, eq_comm]
  · cases encoded : encode operation with
    | error cause => simp [Wal.append, encoded, fits]
    | ok bytes => exact absurd (encode_eq_ok_iff.mp encoded).1 fits

/-- Appending a list of operations writes their records, one behind the other. -/
theorem Wal.appendAll_eq_ok_iff {wal wal' : Wal} {operations : List Operation} :
    wal.appendAll operations = .ok wal' ↔
      (∀ operation ∈ operations, operation.Fits) ∧
        wal' = ⟨wal.contents ++ records operations⟩ := by
  induction operations generalizing wal with
  | nil => simp [Wal.appendAll, records, eq_comm]
  | cons operation operations ih =>
      rw [Wal.appendAll]
      cases appended : wal.append operation with
      | error cause =>
          refine ⟨(nomatch ·), fun valid => ?_⟩
          have fits := valid.1 operation List.mem_cons_self
          rw [Wal.append, encode_of_fits fits] at appended
          cases appended
      | ok result =>
          obtain ⟨offset, next⟩ := result
          obtain ⟨fits, rfl, rfl⟩ := Wal.append_eq_ok_iff.mp appended
          dsimp only
          rw [ih]
          simp [fits, records]

/-- A strict initial part of a record is torn. -/
theorem isTorn_of_cut {operation : Operation} (fits : operation.Fits) {fragment : Bytes}
    {missing : Bytes} (cut : record operation = fragment ++ missing) (strict : missing ≠ []) :
    IsTorn fragment := by
  by_cases short : fragment.length < recordHeaderLen
  · exact .inl short
  · have fieldsInside : recordHeaderLen ≤ fragment.length := Nat.not_lt.mp short
    have sameField : ∀ offset, offset + 4 ≤ recordHeaderLen →
        (fragment.drop offset).take 4 = ((record operation).drop offset).take 4 := by
      intro offset bound
      rw [cut, List.drop_append_of_le_length (by omega),
        List.take_append_of_le_length (by rw [List.length_drop]; omega)]
    have keyLen : declaredKeyLen fragment = operation.key.length := by
      have whole := declaredKeyLen_record fits []
      rw [List.append_nil] at whole
      rw [← whole, declaredKeyLen, declaredKeyLen, sameField keyLenOffset (by decide)]
    have valueLen : declaredValueLen fragment = operation.value.length := by
      have whole := declaredValueLen_record fits []
      rw [List.append_nil] at whole
      rw [← whole, declaredValueLen, declaredValueLen, sameField valueLenOffset (by decide)]
    have shorter : fragment.length < (record operation).length := by
      rw [cut, List.length_append]
      have := List.length_pos_of_ne_nil strict
      omega
    rw [length_record] at shorter
    refine .inr ⟨?_, ?_, ?_⟩
    · rw [keyLen]; exact fits.1
    · rw [valueLen]; exact fits.2
    · rw [keyLen, valueLen]; exact shorter

/-- Cutting a log of complete records keeps the records that end before the cut. -/
theorem replay_take_records {operations : List Operation}
    (fit : ∀ operation ∈ operations, operation.Fits) (size : Nat) :
    ∃ count ≤ operations.length,
      replay ((records operations).take size) = .ok (operations.take count) ∧
        (records (operations.take count)).length ≤ size ∧
        ∀ more ≤ operations.length, (records (operations.take more)).length ≤ size →
          more ≤ count := by
  induction operations generalizing size with
  | nil =>
      refine ⟨0, Nat.le_refl _, ?_, Nat.zero_le _, fun more bound _ => bound⟩
      rw [records, List.flatMap_nil, List.take_nil]
      exact replay_of_isTorn (.inl (by decide))
  | cons operation operations ih =>
      have first := fit operation List.mem_cons_self
      have whole : records (operation :: operations) = record operation ++ records operations :=
        List.flatMap_cons
      by_cases inside : (record operation).length ≤ size
      · obtain ⟨count, bound, replayed, short, longest⟩ :=
          ih (fun later member => fit later (List.mem_cons_of_mem _ member))
            (size - (record operation).length)
        refine ⟨count + 1, Nat.succ_le_succ bound, ?_, ?_, ?_⟩
        · rw [whole, List.take_append, List.take_of_length_le inside, replay_record_append first,
            replayed]
          rfl
        · rw [List.take_succ_cons, length_records_cons]
          omega
        · intro more moreBound moreShort
          cases more with
          | zero => exact Nat.zero_le _
          | succ more =>
              rw [List.take_succ_cons, length_records_cons] at moreShort
              exact Nat.succ_le_succ (longest more (Nat.le_of_succ_le_succ moreBound) (by omega))
      · -- The cut falls into the first record, so what is left of it is a torn tail.
        refine ⟨0, Nat.zero_le _, ?_, Nat.zero_le _, fun more moreBound moreShort => ?_⟩
        · have cut : (records (operation :: operations)).take size = (record operation).take size := by
            rw [whole, List.take_append_of_le_length (by omega)]
          rw [cut]
          refine replay_of_isTorn (isTorn_of_cut first (List.take_append_drop size _).symm ?_)
          rw [Ne, List.drop_eq_nil_iff]
          exact inside
        · cases more with
          | zero => exact Nat.le_refl _
          | succ more =>
              rw [List.take_succ_cons, length_records_cons] at moreShort
              omega

theorem eq_map_record_of_encoded {operations : List Operation} {encodings : List Bytes}
    (encoded : List.Forall₂ (fun operation bytes => encode operation = .ok bytes) operations
      encodings) :
    (∀ operation ∈ operations, operation.Fits) ∧ encodings = operations.map record := by
  induction encoded with
  | nil => exact ⟨by simp, rfl⟩
  | @cons operation bytes _ _ first _ ih =>
      obtain ⟨fits, rfl⟩ := encode_eq_ok_iff.mp first
      exact ⟨List.forall_mem_cons.mpr ⟨fits, ih.1⟩, by rw [ih.2, List.map_cons]⟩

/-- **A log cut anywhere.**  Replaying the first bytes of the concatenated
encodings succeeds and returns the longest initial part of the operations whose
encodings lie entirely before the cut. -/
theorem replay_truncated (operations : List Operation) (encodings : List Bytes)
    (encoded : List.Forall₂ (fun operation bytes => encode operation = .ok bytes) operations
      encodings) (size : Nat) :
    ∃ count ≤ operations.length,
      (Wal.openLog (some (encodings.flatten.take size))).replay = .ok (operations.take count) ∧
        (encodings.take count).flatten.length ≤ size ∧
        ∀ more ≤ operations.length, (encodings.take more).flatten.length ≤ size →
          more ≤ count := by
  obtain ⟨fit, rfl⟩ := eq_map_record_of_encoded encoded
  have concat : ∀ some : List Operation, (some.map record).flatten = records some := by
    intro some
    rw [records, List.flatMap_def]
  simp only [← List.map_take, concat]
  exact replay_take_records fit size

/-- Two one-byte writes, to run the log on. -/
def putA : Operation := .put [97] [49]
def putB : Operation := .put [98] [50]

/-- A cut inside the second record. -/
theorem replay_truncated_second_record :
    ∃ count ≤ [putA, putB].length,
      (Wal.openLog (some ([record putA, record putB].flatten.take 20))).replay =
          .ok ([putA, putB].take count) ∧
        ([record putA, record putB].take count).flatten.length ≤ 20 ∧
        ∀ more ≤ [putA, putB].length,
          ([record putA, record putB].take more).flatten.length ≤ 20 → more ≤ count :=
  replay_truncated [putA, putB] [record putA, record putB]
    (.cons (encode_of_fits (by decide)) (.cons (encode_of_fits (by decide)) .nil)) 20

/-- **When writes behind a torn tail survive.** A log of complete records ends
in a fragment cut off one more record; it is opened, and further operations are
appended.  Opening keeps the fragment, so a later replay returns the complete
records and all appended ones exactly when the fragment followed by the new
records reads as the new records followed by a torn tail: when nothing was cut,
when nothing is appended, or by coincidence of the bytes. -/
theorem torn_log_replays_appended_iff (complete appended : List Operation) (last : Operation)
    (fragment missing : Bytes) (wal : Wal)
    (completeFit : ∀ operation ∈ complete, operation.Fits)
    (lastRecord : encode last = .ok (fragment ++ missing)) (strict : missing ≠ [])
    (written : (Wal.openLog (some (records complete ++ fragment))).appendAll appended = .ok wal) :
    (Wal.openLog (some wal.contents)).replay = .ok (complete ++ appended) ↔
      fragment = [] ∨ appended = [] ∨
        ∃ tail, fragment ++ records appended = records appended ++ tail ∧ IsTorn tail := by
  obtain ⟨lastFits, cut⟩ := encode_eq_ok_iff.mp lastRecord
  obtain ⟨appendedFit, rfl⟩ := Wal.appendAll_eq_ok_iff.mp written
  have fragmentTorn : IsTorn fragment := isTorn_of_cut lastFits cut.symm strict
  have emptyTorn : IsTorn [] := .inl (by decide)
  have asTail : (Wal.openLog (some (records complete ++ fragment ++ records appended))).replay =
      .ok (complete ++ appended) ↔
        ∃ tail, fragment ++ records appended = records appended ++ tail ∧ IsTorn tail := by
    rw [Wal.replay, Wal.openLog, Option.getD_some, List.append_assoc,
      replay_records_append completeFit]
    constructor
    · intro replayed
      have others : replay (fragment ++ records appended) = .ok appended := by
        cases rest : replay (fragment ++ records appended) with
        | error cause => rw [rest] at replayed; cases replayed
        | ok later =>
            rw [rest] at replayed
            have same := Except.ok.inj replayed
            rw [List.append_cancel_left same]
      exact (replay_eq_ok_iff.mp others).2
    · intro reads
      rw [replay_eq_ok_iff.mpr ⟨appendedFit, reads⟩]
      rfl
  refine asTail.trans ⟨fun reads => .inr (.inr reads), ?_⟩
  rintro (rfl | rfl | reads)
  · exact ⟨[], by simp, emptyTorn⟩
  · exact ⟨fragment, by simp [records], fragmentTorn⟩
  · exact reads

/-- The condition is met by a log cut between two records. -/
theorem torn_log_replays_appended_clean_cut :
    (Wal.openLog (some (records [putA] ++ record putB))).replay = .ok [putA, putB] :=
  (torn_log_replays_appended_iff [putA] [putB] putB [] (record putB)
    ⟨records [putA] ++ record putB⟩ (by decide) (by decide +kernel) (by decide +kernel)
    (by decide +kernel)).mpr (.inl rfl)

/-- **A write behind a torn tail is lost.** The second record was cut after its
type byte; the operation appended and synced after reopening is not replayed. -/
theorem torn_log_loses_appended :
    encode putB = .ok ((record putB).take 5 ++ (record putB).drop 5) ∧
      (record putB).drop 5 ≠ [] ∧
      (Wal.openLog (some (records [putA] ++ (record putB).take 5))).appendAll [putB] =
        .ok ⟨records [putA] ++ (record putB).take 5 ++ record putB⟩ ∧
      (Wal.openLog (some (records [putA] ++ (record putB).take 5 ++ record putB))).replay ≠
        .ok ([putA] ++ [putB]) := by
  decide +kernel

/-! ## Damage before the last record -/

/-- The bytes read as a log of at least one complete record. -/
def Reframes (data : Bytes) : Prop :=
  ∃ first later tail, (∀ operation ∈ first :: later, Operation.Fits operation) ∧
    data = records (first :: later) ++ tail ∧ IsTorn tail

/-- Replay of a byte string that is not torn succeeds exactly when the bytes
read as a log. -/
theorem replay_error_iff {data : Bytes} :
    (∃ cause, replay data = .error cause) ↔ ¬ IsTorn data ∧ ¬ Reframes data := by
  constructor
  · rintro ⟨cause, failed⟩
    refine ⟨fun torn => ?_, ?_⟩
    · rw [replay_of_isTorn torn] at failed
      cases failed
    · rintro ⟨first, later, tail, fit, reads, torn⟩
      rw [replay_eq_ok_iff.mpr ⟨fit, tail, reads, torn⟩] at failed
      cases failed
  · rintro ⟨notTorn, notLog⟩
    cases replayed : replay data with
    | error cause => exact ⟨cause, rfl⟩
    | ok operations =>
        obtain ⟨fit, tail, reads, torn⟩ := replay_eq_ok_iff.mp replayed
        cases operations with
        | nil => exact absurd (by rw [reads]; exact torn) notTorn
        | cons first later => exact absurd ⟨first, later, tail, fit, reads, torn⟩ notLog

/-- A record with one byte changed is not a record. -/
theorem decode_damaged {operation other : Operation} {position : Nat} {byte : UInt8}
    (inside : position < (record operation).length)
    (changed : byte ≠ (record operation)[position]) :
    decode ((record operation).set position byte) ≠ .ok other := by
  intro decoded
  have isRecord := (eq_record_of_decode decoded).2
  have damaged : (record operation).set position byte ≠ record operation := by
    intro same
    have bytes := congrArg (fun data => data[position]?) same
    simp only [List.getElem?_set_self inside, List.getElem?_eq_getElem inside] at bytes
    exact changed (Option.some.inj bytes)
  have bodyOf : ∀ op : Operation, (record op).drop 4 = recordBody op := by
    intro op
    rw [record, ← length_u32ToLeBytes (crc32 (recordBody op)), List.drop_left]
  have checksumOf : ∀ op : Operation, (record op).take 4 = u32ToLeBytes (crc32 (recordBody op)) := by
    intro op
    rw [record, ← length_u32ToLeBytes (crc32 (recordBody op)), List.take_left]
  by_cases inBody : 4 ≤ position
  · -- The checksum field is intact, but the body it covers is not.
    have sameChecksum : crc32 (recordBody other) = crc32 (recordBody operation) := by
      have fields := congrArg (fun data => readU32Le (data.take 4)) isRecord
      simp only [checksumOf, List.take_set_of_le inBody, readU32Le_u32ToLeBytes] at fields
      exact fields.symm
    have bodies : recordBody other = (recordBody operation).set (position - 4) byte := by
      rw [← bodyOf other, ← isRecord, List.drop_set, if_neg (Nat.not_lt.mpr inBody), bodyOf]
    have bodyInside : position - 4 < (recordBody operation).length := by
      rw [← bodyOf, List.length_drop]
      omega
    refine crc32_set_ne bodyInside ?_ (bodies ▸ sameChecksum)
    have there : (recordBody operation)[position - 4] = (record operation)[position] := by
      simp only [← bodyOf, List.getElem_drop]
      congr 1
      omega
    rw [there]
    exact changed
  · -- The body is intact, so the operation is the same and so is its checksum.
    have bodies : recordBody other = recordBody operation := by
      rw [← bodyOf other, ← isRecord, List.drop_set_of_lt (Nat.not_le.mp inBody), bodyOf]
    exact damaged (by rw [isRecord, record, record, bodies])

/-- **When damage before the last record is reported.** One byte of a record
that is not the last is changed.  Replay fails exactly when the byte is outside
the two length fields, or a changed length exceeds its limit, or the frame of
the changed length still ends inside the log and the damaged bytes do not read
as another log. -/
theorem corruption_reported_iff (before after : List Operation) (operation : Operation)
    (position : Nat) (byte : UInt8)
    (beforeFit : ∀ op ∈ before, op.Fits) (fits : operation.Fits)
    (inside : position < (record operation).length)
    (changed : byte ≠ (record operation)[position]) :
    let damaged := (record operation).set position byte ++ records after
    (∃ cause, (Wal.openLog (some (records before ++ damaged))).replay = .error cause) ↔
      (position < keyLenOffset ∨ recordHeaderLen ≤ position) ∨
        (maxKeySize < declaredKeyLen damaged ∨ maxValueSize < declaredValueLen damaged) ∨
        (recordHeaderLen + declaredKeyLen damaged + declaredValueLen damaged ≤ damaged.length ∧
          ¬ Reframes damaged) := by
  intro damaged
  have header : recordHeaderLen ≤ damaged.length := by
    rw [List.length_append, List.length_set, length_record]
    omega
  have suffices_ : (∃ cause, (Wal.openLog (some (records before ++ damaged))).replay = .error cause) ↔
      ∃ cause, replay damaged = .error cause := by
    rw [Wal.replay, Wal.openLog, Option.getD_some, replay_records_append beforeFit]
    cases replay damaged <;> simp [Except.map]
  rw [suffices_]
  constructor
  · intro failed
    obtain ⟨notTorn, notLog⟩ := replay_error_iff.mp failed
    by_cases outside : position < keyLenOffset ∨ recordHeaderLen ≤ position
    · exact .inl outside
    · by_cases oversized : maxKeySize < declaredKeyLen damaged ∨ maxValueSize < declaredValueLen damaged
      · exact .inr (.inl oversized)
      · refine .inr (.inr ⟨?_, notLog⟩)
        unfold IsTorn at notTorn
        omega
  · rintro (outside | oversized | ⟨ends, notLog⟩)
    · -- The length fields are intact, so the damaged record is framed and decoded.
      have sameField : ∀ offset, keyLenOffset ≤ offset → offset + 4 ≤ recordHeaderLen →
          (damaged.drop offset).take 4 = ((record operation ++ records after).drop offset).take 4 := by
        intro offset low high
        apply List.ext_getElem?
        intro index
        simp only [List.getElem?_take, List.getElem?_drop, damaged]
        split
        · rename_i small
          have apart : position ≠ offset + index := by omega
          have before : offset + index < (record operation).length := by
            rw [length_record]
            omega
          rw [List.getElem?_append_left (by rw [List.length_set]; exact before),
            List.getElem?_append_left before, List.getElem?_set_ne apart]
        · rfl
      have keyLen : declaredKeyLen damaged = operation.key.length := by
        rw [← declaredKeyLen_record fits (records after), declaredKeyLen, declaredKeyLen,
          sameField keyLenOffset (le_refl _) (by decide)]
      have valueLen : declaredValueLen damaged = operation.value.length := by
        rw [← declaredValueLen_record fits (records after), declaredValueLen, declaredValueLen,
          sameField valueLenOffset (by decide) (by decide)]
      have frameLen : recordHeaderLen + operation.key.length + operation.value.length =
          ((record operation).set position byte).length := by
        rw [List.length_set, length_record]
      rw [replay_of_frame header (by rw [keyLen]; exact fits.1) (by rw [valueLen]; exact fits.2)
        (by rw [keyLen, valueLen, frameLen, List.length_append]; omega), keyLen, valueLen, frameLen,
        List.take_left]
      cases decoded : decode ((record operation).set position byte) with
      | error cause => exact ⟨cause, rfl⟩
      | ok other => exact absurd decoded (decode_damaged inside changed)
    · exact ⟨_, replay_of_oversized header oversized⟩
    · refine replay_error_iff.mpr ⟨?_, notLog⟩
      unfold IsTorn
      omega

/-- A damaged key byte is reported. -/
theorem corruption_reported_key_byte :
    ∃ cause, (Wal.openLog (some (records [] ++
      ((record putA).set 13 98 ++ records [putB])))).replay = .error cause :=
  (corruption_reported_iff [] [putB] putA 13 98 (by decide) (by decide) (by decide +kernel)
    (by decide +kernel)).mpr (.inl (.inr (by decide)))

/-- **A damaged length can look like a torn tail.** The key length of the first
of two records is changed from 1 to 255, which runs past the end of the log:
replay succeeds and returns nothing. -/
theorem damaged_length_is_silent :
    5 < (record putA).length ∧ (record putA)[5]? = some 1 ∧ [putB] ≠ [] ∧
      (Wal.openLog (some (records [] ++
        ((record putA).set 5 255 ++ records [putB])))).replay = .ok [] ∧
      ¬ ∃ cause, (Wal.openLog (some (records [] ++
        ((record putA).set 5 255 ++ records [putB])))).replay = .error cause := by
  have replayed : (Wal.openLog (some (records [] ++
      ((record putA).set 5 255 ++ records [putB])))).replay = .ok [] := by
    decide +kernel
  refine ⟨by decide +kernel, by decide +kernel, by decide, replayed, ?_⟩
  rintro ⟨cause, failed⟩
  rw [replayed] at failed
  cases failed

end LsmStore
