import ObjectStore.Proofs.World.Answers

/-!
# When calls are answered with `closed`

An engine that is closed answers every call so. An engine that is open answers no call so: what else may
be wrong with a call, be it a switch, a batch that is too long for the log or a request that makes no
sense, is told in another way.

Main statements: `alwaysClosed_of_closed` and `neverClosed_of_open`.
-/

namespace ObjectStore

/-! ## Batches that cannot be written -/

namespace Log

/-- What cannot be encoded is too long. -/
def TooLong (err : StorageError) : Prop :=
  ∃ reason, err = .invalidArgs reason

theorem tooLong_of_encodeLength {n : Nat} {err : StorageError} (h : encodeLength n = .error err) :
    TooLong err := by
  unfold encodeLength at h
  split at h
  · cases h
  · cases h
    exact ⟨_, rfl⟩

theorem tooLong_of_encodeField {bs : Bytes} {err : StorageError} (h : encodeField bs = .error err) :
    TooLong err := by
  rcases Answer.bind_eq_error_iff.mp h with h | ⟨_, -, h⟩
  · exact tooLong_of_encodeLength h
  · cases h

theorem tooLong_of_encodeEntry {e : Entry} {err : StorageError} (h : encodeEntry e = .error err) :
    TooLong err := by
  rcases Answer.bind_eq_error_iff.mp h with h | ⟨_, -, h⟩
  · exact tooLong_of_encodeField h
  · rcases Answer.bind_eq_error_iff.mp h with h | ⟨_, -, h⟩
    · exact tooLong_of_encodeField h
    · cases h

/-- A count and fields after it. -/
theorem tooLong_of_encodeFields {α : Type} {f : α → Except StorageError Bytes} {l : List α}
    (hf : ∀ a err, f a = .error err → TooLong err) {err : StorageError}
    (h : (do
      let count ← encodeLength l.length
      let fields ← l.mapM f
      return count ++ fields.flatten : Except StorageError Bytes) = .error err) : TooLong err := by
  rcases Answer.bind_eq_error_iff.mp h with h | ⟨_, -, h⟩
  · exact tooLong_of_encodeLength h
  · rcases Answer.bind_eq_error_iff.mp h with h | ⟨_, -, h⟩
    · obtain ⟨a, -, h⟩ := Answer.mapM_eq_error h
      exact hf a err h
    · cases h

theorem tooLong_of_encode {b : Batch} {err : StorageError} (h : encode b = .error err) :
    TooLong err := by
  rcases Answer.bind_eq_error_iff.mp h with h | ⟨_, -, h⟩
  · cases b with
    | put entries => exact tooLong_of_encodeFields (fun _ _ => tooLong_of_encodeEntry) h
    | delete keys => exact tooLong_of_encodeFields (fun _ _ => tooLong_of_encodeField) h
  · rcases Answer.bind_eq_error_iff.mp h with h | ⟨_, -, h⟩
    · exact tooLong_of_encodeLength h
    · cases h

end Log

namespace Engine

/-- An engine that is open does not say that it is closed. -/
theorem write_ne_closed {e : Engine} (hopen : e.isClosed = false) (b : Batch) (d : Disk) :
    e.write b d ≠ .error .closed := by
  intro h
  unfold write at h
  rw [hopen] at h
  split at h
  · contradiction
  · split at h
    · cases h
    · split at h
      · cases h
      · split at h
        · rename_i err hencode
          obtain ⟨reason, rfl⟩ := Log.tooLong_of_encode hencode
          cases h
        · cases h

end Engine

namespace World

open ObjectStore.Action

/-- Every call through the handle is answered with `closed`. -/
structure AlwaysClosed (handle : Handle) (w : World) : Prop where
  put : ∀ es, ((put handle es).exec w).1 = .error .closed
  delete : ∀ keys, ((delete handle keys).exec w).1 = .error .closed
  scan : ∀ front, ((scan handle front).exec w).1 = .error .closed
  sync : ∀ devices mode, ((sync handle devices mode).exec w).1 = .error .closed

/-- No call through the handle is answered with `closed`. -/
structure NeverClosed (handle : Handle) (w : World) : Prop where
  put : ∀ es, ((put handle es).exec w).1 ≠ .error .closed
  delete : ∀ keys, ((delete handle keys).exec w).1 ≠ .error .closed
  scan : ∀ front, ((scan handle front).exec w).1 ≠ .error .closed
  sync : ∀ devices mode, ((sync handle devices mode).exec w).1 ≠ .error .closed

section Engines

variable {handle : Handle} {w : World} {e : Engine}

theorem refusal?_of_closed {r : EngineRef} (he : w.engines.get? r = some e)
    (hclosed : e.isClosed = true) (call : EngineCall) (batch : Batch) :
    refusal? (.direct r) call batch w = some .closed := by
  have hwrite : e.write batch w.disk = .error .closed := by simp [Engine.write, hclosed]
  simp [refusal?, blocks, faults?, Handle.engine, he, hwrite]

theorem refusal?_ne_closed (he : w.engines.get? handle.engine = some e) (hopen : e.isClosed = false)
    (call : EngineCall) (batch : Batch) : refusal? handle call batch w ≠ some .closed := by
  intro h
  unfold refusal? at h
  split at h
  · cases h
  · rw [he] at h
    simp only at h
    split at h
    · rename_i err hwrite
      cases h
      exact Engine.write_ne_closed hopen batch w.disk hwrite
    · cases h

/-- An engine that is closed answers everything with `closed`. -/
theorem alwaysClosed_of_closed {r : EngineRef} (he : w.engines.get? r = some e)
    (hclosed : e.isClosed = true) : AlwaysClosed (.direct r) w := by
  constructor
  case put =>
    intro es
    rw [exec_put_eq, refusal?_of_closed he hclosed]
  case delete =>
    intro keys
    rw [exec_delete_eq, refusal?_of_closed he hclosed]
  case scan =>
    intro front
    have hrefusal : scanRefusal? (.direct r) w = some .closed := by
      simp [scanRefusal?, blocks, faults?, Handle.engine, he, hclosed]
    rw [exec_scan_eq, hrefusal]
  case sync =>
    intro devices mode
    have hrefusal : syncRefusal? (.direct r) devices mode w = some .closed := by
      simp [syncRefusal?, blocks, faults?, Handle.engine, he, hclosed]
    rcases exec_sync_cases (.direct r) devices mode w with ⟨err, herr, hexec⟩ | ⟨hnone, -⟩
    · rw [hrefusal] at herr
      cases herr
      rw [hexec]
    · rw [hrefusal] at hnone
      cases hnone

/-- An engine that is open answers nothing with `closed`, also behind a guard. -/
theorem neverClosed_of_open (he : w.engines.get? handle.engine = some e)
    (hopen : e.isClosed = false) : NeverClosed handle w := by
  constructor
  case put =>
    intro es h
    rw [exec_put_eq] at h
    split at h
    · rename_i err hrefusal
      cases h
      exact refusal?_ne_closed he hopen _ _ hrefusal
    · cases h
  case delete =>
    intro keys h
    rw [exec_delete_eq] at h
    split at h
    · rename_i err hrefusal
      cases h
      exact refusal?_ne_closed he hopen _ _ hrefusal
    · cases h
  case scan =>
    intro front h
    rw [exec_scan_eq] at h
    split at h
    · rename_i err hrefusal
      cases h
      simp [scanRefusal?, he, hopen, Faults.error] at hrefusal
    · cases h
  case sync =>
    intro devices mode h
    rcases exec_sync_cases handle devices mode w with ⟨err, herr, hexec⟩ | ⟨-, _, _, _, -, -, hexec⟩
    · rw [hexec] at h
      cases h
      unfold syncRefusal? at herr
      split at herr
      · cases herr
      · rw [he] at herr
        simp only [hopen, Bool.false_eq_true, if_false] at herr
        split at herr
        · rename_i err hcheck
          cases herr
          unfold checkRequest at hcheck
          split at hcheck
          · cases hcheck
          · cases mode <;> cases hcheck
        · cases herr
    · rw [hexec] at h
      cases h

end Engines

end World

end ObjectStore
