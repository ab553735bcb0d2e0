import LsmStore.Interleaving

/-!
# What failing actions leave behind

A file operation that fails ends the action it belongs to and leaves the effects
the action had until then.  For each action one lemma says what state a failure
leaves; together with the lemmas about successful runs they describe an action
under every plan of verdicts.

A failure that has written nothing is called clean (`Verdict.Clean`).
-/

set_option autoImplicit false

namespace LsmStore

open Foundation

variable {fmt : TableFormat}

/-- The operation was carried out, or it failed before it had written anything. -/
def Verdict.Clean : Verdict → Prop
  | .done => True
  | .fail progress => progress = 0

instance decidableClean : ∀ verdict : Verdict, Decidable verdict.Clean
  | .done => isTrue trivial
  | .fail progress => inferInstanceAs (Decidable (progress = 0))

/-! ## Sequencing -/

theorem bind_eq_error {α β : Type} {first : Action fmt α} {next : α → Action fmt β}
    {db db' : Db fmt} {failure : Failure} :
    (first >>= next) db = .error failure db' ↔
      first db = .error failure db' ∨
        ∃ middle mid, first db = .ok middle mid ∧ next middle mid = .error failure db' := by
  constructor
  · intro failed
    cases ran : first db with
    | ok middle mid => exact .inr ⟨middle, mid, rfl, (bind_of_ok ran).symm.trans failed⟩
    | error cause mid =>
        have stopped : (first >>= next) db = .error cause mid := bind_of_error ran
        rw [failed] at stopped
        cases stopped
        exact .inl rfl
  · rintro (failed | ⟨middle, mid, done, failed⟩)
    · exact bind_of_error failed
    · exact (bind_of_ok done).trans failed

/-! ## The log -/

theorem walAppend_of_ok {operation : Operation} {db db' : Db fmt} {value : Unit}
    (done : walAppend operation db = .ok value db') :
    operation.Fits ∧ ∃ faults, db' =
      { db with
        disk := { db.disk with wal := db.disk.wal ++ record operation }, faults := faults } := by
  obtain ⟨disk, engine, faults⟩ := db
  unfold walAppend at done
  cases encoded : (Wal.mk disk.wal).append operation with
  | error cause => rw [encoded] at done; cases done
  | ok appended =>
      obtain ⟨offset, wal⟩ := appended
      obtain ⟨fits, _, rfl⟩ := Wal.append_eq_ok_iff.mp encoded
      rw [encoded] at done
      cases faults with
      | nil => cases done; exact ⟨fits, [], rfl⟩
      | cons verdict rest =>
          cases verdict with
          | done => cases done; exact ⟨fits, rest, rfl⟩
          | fail progress => cases done

/-- The operation cannot be encoded, or only a part of its record is written. -/
theorem walAppend_of_error {operation : Operation} {db db' : Db fmt} {failure : Failure}
    (failed : walAppend operation db = .error failure db') :
    (¬ operation.Fits ∧ db' = db) ∨
      operation.Fits ∧ failure = ioFailure ∧ ∃ progress faults,
        db.faults = .fail progress :: faults ∧
        db' =
          { db with
            disk :=
              { db.disk with
                wal := db.disk.wal ++ (record operation).take progress }
            faults := faults } := by
  obtain ⟨disk, engine, faults⟩ := db
  unfold walAppend at failed
  cases encoded : (Wal.mk disk.wal).append operation with
  | error cause =>
      rw [encoded] at failed
      cases failed
      refine .inl ⟨fun fits => ?_, rfl⟩
      rw [Wal.append_eq_ok_iff.mpr ⟨fits, rfl, rfl⟩] at encoded
      cases encoded
  | ok appended =>
      obtain ⟨offset, wal⟩ := appended
      obtain ⟨fits, _, rfl⟩ := Wal.append_eq_ok_iff.mp encoded
      rw [encoded] at failed
      refine .inr ⟨fits, ?_⟩
      cases faults with
      | nil => cases failed
      | cons verdict rest =>
          cases verdict with
          | done => cases failed
          | fail progress =>
              cases failed
              refine ⟨rfl, progress, rest, rfl, ?_⟩
              simp [List.take_append]

theorem walSync_of_error {db db' : Db fmt} {failure : Failure}
    (failed : walSync db = .error failure db') :
    failure = ioFailure ∧ ∃ faults, db' = { db with faults := faults } := by
  obtain ⟨disk, engine, faults⟩ := db
  cases faults with
  | nil => cases failed
  | cons verdict rest =>
      cases verdict with
      | done => cases failed
      | fail progress => cases failed; exact ⟨rfl, rest, rfl⟩

/-- The log is as it was, or it is empty. -/
theorem walTruncate_of_error {db db' : Db fmt} {failure : Failure}
    (failed : walTruncate db = .error failure db') :
    failure = ioFailure ∧ ∃ wal faults, (wal = db.disk.wal ∨ wal = []) ∧
      db' = { db with disk := { db.disk with wal := wal }, faults := faults } := by
  obtain ⟨disk, engine, faults⟩ := db
  cases faults with
  | nil => cases failed
  | cons verdict rest =>
      cases verdict with
      | done => cases failed
      | fail progress =>
          cases progress with
          | zero => cases failed; exact ⟨rfl, _, rest, .inl rfl, rfl⟩
          | succ progress => cases failed; exact ⟨rfl, [], rest, .inr rfl, rfl⟩

/-! ## The manifest -/

/-- A failed append leaves a part of the record, as the verdict says. -/
theorem manifestAppend_of_error {record : ManifestRecord} {db db' : Db fmt} {failure : Failure}
    (failed : manifestAppend record db = .error failure db') :
    failure = ioFailure ∧ ∃ progress faults, db.faults = .fail progress :: faults ∧
      db' =
        { db with
          disk := { db.disk with manifest := db.disk.manifest ++ record.encode.take progress }
          faults := faults } := by
  obtain ⟨disk, engine, faults⟩ := db
  cases faults with
  | nil => cases failed
  | cons verdict rest =>
      cases verdict with
      | done => cases failed
      | fail progress => cases failed; exact ⟨rfl, progress, rest, rfl, rfl⟩

theorem manifestAppend_faults {record : ManifestRecord} {db db' : Db fmt} {value : Unit}
    (done : manifestAppend record db = .ok value db') : db'.faults ⊆ db.faults := by
  obtain ⟨disk, engine, faults⟩ := db
  cases faults with
  | nil => cases done; exact List.Subset.refl _
  | cons verdict rest =>
      cases verdict with
      | done => cases done; exact List.subset_cons_self _ _
      | fail progress => cases done

/-- No id is left, or the id is taken in memory and only a part of its record is
written. -/
theorem nextTableId_of_error {db db' : Db fmt} {failure : Failure}
    (failed : nextTableId db = .error failure db') :
    (failure = .panic ∧ ¬ Roomy db ∧ db' = db) ∨
      failure = ioFailure ∧ Roomy db ∧ ∃ progress faults, db.faults = .fail progress :: faults ∧
        db' =
          { disk :=
              { db.disk with
                manifest := db.disk.manifest ++
                  (ManifestRecord.setNextTableId (db.engine.manifest.nextTableId + 1)).encode.take
                    progress }
            engine := { db.engine with manifest := db.engine.manifest.allocated }
            faults := faults } := by
  by_cases room : Roomy db
  · refine .inr ?_
    rcases bind_eq_error.mp failed with impossible | ⟨_, _, isState, failed⟩
    · cases impossible
    cases isState
    dsimp only at failed
    rw [if_neg (Nat.not_lt.mpr room)] at failed
    rcases bind_eq_error.mp failed with impossible | ⟨_, _, changed, failed⟩
    · cases impossible
    cases changed
    rcases bind_eq_error.mp failed with failed | ⟨_, _, _, impossible⟩
    · obtain ⟨isFailure, progress, faults, isPlan, rfl⟩ := manifestAppend_of_error failed
      exact ⟨isFailure, room, progress, faults, isPlan, rfl⟩
    · cases impossible
  · rw [nextTableId_panic room] at failed
    cases failed
    exact .inl ⟨rfl, room, rfl⟩

/-- The id is listed already, or only a part of the record is written. -/
theorem addTable_of_error {id : UInt64} {level : UInt32} {db db' : Db fmt} {failure : Failure}
    (failed : addTable id level db = .error failure db') :
    (failure = .error .invalidManifest ∧ db.engine.manifest.lists id = true ∧ db' = db) ∨
      failure = ioFailure ∧ ∃ progress faults, db.faults = .fail progress :: faults ∧
        db' =
          { db with
            disk :=
              { db.disk with
                manifest := db.disk.manifest ++
                  (ManifestRecord.addTable id level).encode.take progress }
            faults := faults } := by
  rcases bind_eq_error.mp failed with impossible | ⟨_, _, isState, failed⟩
  · cases impossible
  cases isState
  dsimp only at failed
  by_cases listed : db.engine.manifest.lists id = true
  · rw [if_pos listed] at failed
    rcases bind_eq_error.mp failed with thrown | ⟨_, _, impossible, _⟩
    · cases thrown
      exact .inl ⟨rfl, listed, rfl⟩
    · cases impossible
  · refine .inr ?_
    rw [if_neg listed] at failed
    rcases bind_eq_error.mp failed with failed | ⟨_, _, _, impossible⟩
    · exact manifestAppend_of_error failed
    · cases impossible

theorem addTable_faults {id : UInt64} {level : UInt32} {db db' : Db fmt} {value : Unit}
    (done : addTable id level db = .ok value db') : db'.faults ⊆ db.faults := by
  unfold addTable at done
  obtain ⟨state, _, isState, done⟩ := bind_eq_ok.mp done
  cases isState
  dsimp only at done
  split at done
  · obtain ⟨_, _, impossible, _⟩ := bind_eq_ok.mp done
    cases impossible
  · obtain ⟨_, _, appended, changed⟩ := bind_eq_ok.mp done
    have fewer := manifestAppend_faults appended
    cases changed
    exact fewer

/-- The first tables are removed, and of the next record a part is written. -/
theorem removeTables_of_error {ids : List UInt64} {db db' : Db fmt} {failure : Failure}
    (failed : removeTables ids db = .error failure db') :
    failure = ioFailure ∧ ∃ gone id rest progress faults, ids = gone ++ id :: rest ∧
      .fail progress ∈ db.faults ∧
      db' =
        { disk :=
            { db.disk with
              manifest := db.disk.manifest ++ manifestLog (gone.map .removeTable) ++
                (ManifestRecord.removeTable id).encode.take progress }
          engine := { db.engine with manifest := db.engine.manifest.removed gone }
          faults := faults } := by
  induction ids generalizing db with
  | nil => cases failed
  | cons id rest ih =>
      unfold removeTables at failed
      rcases bind_eq_error.mp failed with failed | ⟨_, _, appended, failed⟩
      · obtain ⟨isFailure, progress, faults, isPlan, rfl⟩ := manifestAppend_of_error failed
        refine ⟨isFailure, [], id, rest, progress, faults, rfl, ?_, ?_⟩
        · rw [isPlan]
          exact List.mem_cons_self
        · simp [manifestLog, Manifest.removed_nil]
      · have fewer := manifestAppend_faults appended
        obtain ⟨_, rfl⟩ := manifestAppend_of_ok appended
        rcases bind_eq_error.mp failed with impossible | ⟨_, _, changed, failed⟩
        · cases impossible
        cases changed
        obtain ⟨isFailure, gone, last, others, progress, faults, isIds, planned, rfl⟩ := ih failed
        refine ⟨isFailure, id :: gone, last, others, progress, faults, ?_, fewer planned, ?_⟩
        · rw [isIds]
          rfl
        · simp [manifestLog, Manifest.removed_cons]

/-! ## Table files -/

/-- The format refuses the entries, or the file exists under one of its names or
not at all. -/
theorem createTable_of_error {id : UInt64} {entries : List (Key × Entry)} {db db' : Db fmt}
    {failure : Failure} (failed : createTable id entries db = .error failure db') :
    (fmt.create db.engine.options entries = .error failure ∧ db' = db) ∨
      ∃ file handle, fmt.create db.engine.options entries = .ok (file, handle) ∧
        failure = ioFailure ∧ ∃ disk faults, db' = { db with disk := disk, faults := faults } ∧
          (disk = db.disk ∨ disk = { db.disk with tmp := id :: db.disk.tmp } ∨
            disk = db.disk.withTable id file) := by
  obtain ⟨disk, engine, faults⟩ := db
  unfold createTable at failed
  cases created : fmt.create engine.options entries with
  | error cause =>
      rw [created] at failed
      cases failed
      exact .inl ⟨rfl, rfl⟩
  | ok made =>
      obtain ⟨file, handle⟩ := made
      rw [created] at failed
      refine .inr ⟨file, handle, rfl, ?_⟩
      cases faults with
      | nil => cases failed
      | cons verdict rest =>
          cases verdict with
          | done => cases failed
          | fail progress =>
              match progress, failed with
              | 0, failed => cases failed; exact ⟨rfl, disk, rest, rfl, .inl rfl⟩
              | 1, failed => cases failed; exact ⟨rfl, _, rest, rfl, .inr (.inl rfl)⟩
              | _ + 2, failed => cases failed; exact ⟨rfl, _, rest, rfl, .inr (.inr rfl)⟩

/-- The inputs cannot be read, or creating the output fails. -/
theorem writeOutput_of_error {snapshot : Version fmt} {job : CompactionJob fmt} {outputId : UInt64}
    {db db' : Db fmt} {failure : Failure}
    (failed : writeOutput snapshot job outputId db = .error failure db') :
    db' = db ∨ ∃ merged, createTable outputId merged db = .error failure db' := by
  unfold writeOutput at failed
  split at failed
  · cases failed
    exact .inl rfl
  · split at failed
    · cases failed
      exact .inl rfl
    · exact .inr ⟨_, failed⟩

theorem exists_createTable_of_writeOutput {snapshot : Version fmt} {job : CompactionJob fmt}
    {outputId : UInt64} {db db' : Db fmt} {output : SsTable fmt}
    (done : writeOutput snapshot job outputId db = .ok output db') :
    ∃ merged, createTable outputId merged db = .ok output db' := by
  unfold writeOutput at done
  split at done
  · cases done
  · split at done
    · cases done
    · exact ⟨_, done⟩

end LsmStore
