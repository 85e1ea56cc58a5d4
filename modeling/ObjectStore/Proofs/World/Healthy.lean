import ObjectStore.Proofs.World.Answers

/-!
# Handles that work

A handle works if the engine behind it is open and no switch makes its calls fail. Then its scans
succeed, and its puts and deletes fail only where the engine cannot write the batch. That does not
change by calls through the handle. For reading it is enough that scans are granted.

Main statements: `lawful_healthy`, `readable_healthy` and `readable_granted`.
-/

namespace ObjectStore

namespace World

open ObjectStore.Action

/-- No switch makes calls through the handle fail. -/
def Unblocked (handle : Handle) (w : World) : Prop :=
  match handle with
  | .direct _ => True
  | .wrapped _ manager _ => ∀ m guard call,
      w.managers.get? manager = some m → m.guard = some guard → guard.faults.blocks call = false

/-- The engine behind the handle is open, and no switch makes calls through the handle fail. -/
structure Healthy (handle : Handle) (w : World) : Prop where
  opened : ∃ e, w.engines.get? handle.engine = some e ∧ e.isClosed = false
  unblocked : Unblocked handle w

variable {handle : Handle} {w : World}

theorem unblocked_iff : Unblocked handle w ↔ ∀ call, blocks handle call w = false := by
  cases handle with
  | direct engine => simp [Unblocked, blocks, faults?]
  | wrapped serial manager engine =>
      constructor
      · intro h call
        cases hm : w.managers.get? manager with
        | none => simp [blocks, faults?, hm]
        | some m =>
            cases hguard : m.guard with
            | none => simp [blocks, faults?, hm, hguard]
            | some guard => simpa [blocks, faults?, hm, hguard] using h m guard call hm hguard
      · intro h m guard call hm hguard
        simpa [blocks, faults?, hm, hguard] using h call

/-- What is counted are calls, so that the handle works as before. -/
theorem Healthy.counted (h : Healthy handle w) (call : EngineCall) :
    Healthy handle (counted handle call w) where
  opened := by
    rw [engines_counted]
    exact h.opened
  unblocked := unblocked_iff.mpr fun call' => by
    rw [blocks_counted]
    exact unblocked_iff.mp h.unblocked call'

theorem Healthy.applied (h : Healthy handle w) (batch : Batch) :
    Healthy handle (applied handle batch w) where
  opened := by
    unfold World.applied
    split
    · exact h.opened
    · split
      · exact h.opened
      · rename_i e' disk hwrite
        exact ⟨e', by simp [SortedMap.get?_insert], (Engine.table_of_write hwrite).2.1⟩
  unblocked := unblocked_iff.mpr fun call => by
    unfold blocks
    rw [faults?_applied]
    exact unblocked_iff.mp h.unblocked call

/-- A batch is applied or refused, and the handle goes on working. -/
theorem changes_of_healthy (h : Healthy handle w) (call : EngineCall) (batch : Batch) :
    KeyValue.Changes (Healthy handle) (content handle) w ((content handle w).apply batch)
      (do
        guardCall handle call
        write handle batch) := by
  unfold KeyValue.Changes Ensures
  rw [exec_guarded_eq]
  cases hrefusal : refusal? handle call batch w with
  | some err => exact ⟨h.counted call, content_counted handle call w handle⟩
  | none =>
      refine ⟨(h.counted call).applied batch, ?_⟩
      rw [content_applied ((refusal?_counted handle call call batch w).trans hrefusal),
        content_counted]

theorem Healthy.granted (h : Healthy handle w) : scanRefusal? handle w = none := by
  obtain ⟨e, he, hopen⟩ := h.opened
  simp [scanRefusal?, unblocked_iff.mp h.unblocked .scan, he, hopen]

/-- A scan that is granted is answered from the table. -/
theorem exec_scan_of_granted (h : scanRefusal? handle w = none) (front : Bytes) :
    (scan handle front).exec w = (.ok ((content handle w).scan front), counted handle .scan w) := by
  rw [exec_scan_eq, h]

/-- A handle that works can be read. -/
theorem readable_healthy (handle : Handle) :
    (keyValue handle).Readable (Healthy handle) (content handle) :=
  fun w front h => ⟨counted handle .scan w, exec_scan_of_granted h.granted front, h.counted .scan,
    content_counted handle .scan w handle⟩

/-- That calls were counted does not matter for whether a scan is granted. -/
theorem scanRefusal?_counted (handle : Handle) (call : EngineCall) (w : World) :
    scanRefusal? handle (counted handle call w) = scanRefusal? handle w := by
  simp only [scanRefusal?, blocks_counted, engines_counted]

/-- A handle whose scans are granted can be read. -/
theorem readable_granted (handle : Handle) :
    (keyValue handle).Readable (fun w => scanRefusal? handle w = none) (content handle) :=
  fun w front h => ⟨counted handle .scan w, exec_scan_of_granted h front,
    (scanRefusal?_counted handle .scan w).trans h, content_counted handle .scan w handle⟩

theorem scan_of_healthy (hw : Healthy handle w) (front : Bytes) :
    ((scan handle front).exec w).1 = .ok ((content handle w).scan front) := by
  obtain ⟨w', hscan, -⟩ := readable_healthy handle w front hw
  exact congrArg Prod.fst hscan

/-- A handle that works is a store that keeps a table. -/
theorem lawful_healthy (handle : Handle) :
    (keyValue handle).Lawful (Healthy handle) (Healthy handle) (content handle) fun _ => True where
  put es hs _ := changes_of_healthy hs .put (.put es)
  delete keys hs _ := changes_of_healthy hs (.delete keys) (.delete keys)
  scan {s} front hs := by
    obtain ⟨s', hscan, hs', hcontent⟩ := readable_healthy handle s front hs
    unfold Ensures
    rw [hscan]
    exact ⟨rfl, hs', hcontent⟩
  after_of_before hs := hs

/-! ## Depots on handles that work -/

/-- What a ready depot does with objects it does through its handle, with its own codec. -/
theorem withObjects_of_phase {d : Depot} (hphase : d.phase = .ready handle) {α : Type}
    (act : KeyValue World → DataCodec → Action World DepotError α) :
    withObjects d act = act (keyValue handle) d.codec := by
  unfold withObjects
  rw [hphase]

section Granted

variable {d : Depot} (hphase : d.phase = .ready handle) (hgranted : scanRefusal? handle w = none)

include hphase hgranted

/-- A get is answered from the table. -/
theorem get_of_granted (key : String) :
    ((withObjects d fun kv codec => Access.get kv codec key).exec w).1 =
      (content handle w).object d.codec key := by
  obtain ⟨w', hget, -⟩ := Access.exec_get_of_readable (readable_granted handle) d.codec hgranted key
  rw [withObjects_of_phase hphase, hget]

/-- A listing is answered from the table. -/
theorem getAll_of_granted (front : String) :
    ((withObjects d fun kv codec => Access.getAll kv codec front).exec w).1 =
      .ok ((content handle w).objects d.codec front) := by
  obtain ⟨w', hgetAll, -⟩ :=
    Access.exec_getAll_of_readable (readable_granted handle) d.codec hgranted front
  rw [withObjects_of_phase hphase, hgetAll]

end Granted

section Depots

variable {d : Depot} (hphase : d.phase = .ready handle) (hcodec : d.codecFaults = none)

include hphase hcodec

/-- What a ready depot does with objects it does through its handle. -/
theorem withObjects_of_ready {α : Type}
    (act : KeyValue World → DataCodec → Action World DepotError α) :
    withObjects d act = act (keyValue handle) .cbor := by
  unfold withObjects Depot.codec
  rw [hphase, hcodec]

/-- A get through a handle that works answers what the table holds. -/
theorem get_of_healthy (hw : Healthy handle w) (g : String) :
    ((withObjects d fun kv codec => Access.get kv codec g).exec w).1 =
      (content handle w).object .cbor g := by
  rw [get_of_granted hphase hw.granted, Depot.codec, hcodec]

/-- A listing through a handle that works answers the objects of the table. -/
theorem getAll_of_healthy (hw : Healthy handle w) (front : String) :
    ((withObjects d fun kv codec => Access.getAll kv codec front).exec w).1 =
      .ok ((content handle w).objects .cbor front) := by
  rw [getAll_of_granted hphase hw.granted, Depot.codec, hcodec]

end Depots

end World

end ObjectStore
