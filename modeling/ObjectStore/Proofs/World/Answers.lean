import ObjectStore.Proofs.World.Calls

/-!
# What calls through handles answer

A call through a handle is decided before it does anything: by the switches, by whether the engine is
open, and for a batch by whether the engine can write it. `refusal?` and `scanRefusal?` say why a call is
refused, and a call that is refused leaves a world in which it was counted and nothing else has changed.

Main statements: `exec_put_eq`, `exec_delete_eq`, `exec_scan_eq` and `exec_sync_cases`.
-/

namespace ObjectStore.World

open ObjectStore.Action

/-! ## Switches and counters -/

/-- The switches and counters that calls through a handle meet, if a guard stands before the engine. -/
def faults? (handle : Handle) (w : World) : Option Faults :=
  match handle with
  | .direct _ => none
  | .wrapped _ manager _ => ((w.managers.get? manager).bind Manager.guard).map Guard.faults

/-- Whether the switches make a call through a handle fail. -/
def blocks (handle : Handle) (call : EngineCall) (w : World) : Bool :=
  (faults? handle w).any fun faults => faults.blocks call

/-- The world in which a call through a handle was counted. -/
def counted (handle : Handle) (call : EngineCall) (w : World) : World :=
  match handle with
  | .direct _ => w
  | .wrapped _ manager _ => w.modifyManager manager fun m =>
      { m with guard := m.guard.map fun guard =>
          { guard with faults := guard.faults.count call } }

section Counted

variable (handle : Handle) (call : EngineCall) (w : World)

@[simp]
theorem engines_counted : (counted handle call w).engines = w.engines := by
  cases handle with
  | direct _ => rfl
  | wrapped _ manager _ => exact engines_modifyManager w manager _

@[simp]
theorem disk_counted : (counted handle call w).disk = w.disk := by
  cases handle with
  | direct _ => rfl
  | wrapped _ manager _ => exact disk_modifyManager w manager _

@[simp]
theorem content_counted (handle' : Handle) :
    content handle' (counted handle call w) = content handle' w := by
  unfold content
  rw [engines_counted]

theorem faults?_counted :
    faults? handle (counted handle call w) = (faults? handle w).map fun faults => faults.count call := by
  cases handle with
  | direct _ => rfl
  | wrapped _ manager _ =>
      simp only [faults?, counted, get?_modifyManager, if_true]
      cases w.managers.get? manager with
      | none => rfl
      | some m => cases hguard : m.guard <;> simp [hguard]

@[simp]
theorem blocks_counted (call' : EngineCall) :
    blocks handle call' (counted handle call w) = blocks handle call' w := by
  unfold blocks
  rw [faults?_counted]
  cases faults? handle w with
  | none => rfl
  | some faults => cases call <;> cases call' <;> rfl

/-- A call is counted, and then it goes on or is made to fail. -/
theorem exec_guardCall :
    (guardCall handle call).exec w =
      (if blocks handle call w then .error (Faults.error call) else .ok (), counted handle call w) := by
  cases handle with
  | direct _ => rfl
  | wrapped _ manager _ =>
      unfold guardCall blocks faults? counted
      rw [exec_bind, exec_get]
      cases hm : w.managers.get? manager with
      | none => simp [hm, modifyManager]
      | some m =>
          cases hguard : m.guard with
          | none =>
              -- Where there is no guard, nothing is there to be changed.
              have hsame : { m with guard := none } = m := by rw [← hguard]
              simp [hm, hguard, modifyManager, hsame, SortedMap.insert_of_get? hm]
          | some guard =>
              simp only [hm, hguard, exec_bind, exec_set, modifyManager, Option.bind_some,
                Option.map_some, Option.any_some]
              cases guard.faults.blocks call <;> rfl

theorem setsFaults_counted : SetsFaults w (counted handle call w) := by
  have hguarded := Ensures.exec_snd (ensures_guardCall handle call w)
  rwa [exec_guardCall] at hguarded

end Counted

/-! ## Batches -/

/-- Why a batch is refused: a switch, an engine that is closed, or a batch that cannot be written. -/
def refusal? (handle : Handle) (call : EngineCall) (batch : Batch) (w : World) :
    Option StorageError :=
  if blocks handle call w then some (Faults.error call)
  else
    match w.engines.get? handle.engine with
    | none => some .closed
    | some e =>
      match e.write batch w.disk with
      | .error err => some err
      | .ok _ => none

/-- The world in which the engine behind a handle has applied a batch, if it takes the batch. -/
def applied (handle : Handle) (batch : Batch) (w : World) : World :=
  match w.engines.get? handle.engine with
  | none => w
  | some e =>
    match e.write batch w.disk with
    | .error _ => w
    | .ok (e', disk) => { w with engines := w.engines.insert handle.engine e', disk }

section Batches

variable {handle : Handle} {call : EngineCall} {batch : Batch} {w : World}

theorem exec_write_eq (handle : Handle) (batch : Batch) (w : World) :
    (write handle batch).exec w =
      match w.engines.get? handle.engine with
      | none => (.error .closed, w)
      | some e =>
        match e.write batch w.disk with
        | .error err => (.error err, w)
        | .ok _ => (.ok (), applied handle batch w) := by
  unfold write engineOf applied
  simp only [exec_bind, exec_get]
  cases he : w.engines.get? handle.engine with
  | none => rfl
  | some e =>
      simp only [exec_pure]
      cases hwrite : e.write batch w.disk with
      | error err => rfl
      | ok written => rfl

/-- A batch is refused, and then it was counted only, or it is applied as a whole. -/
theorem exec_guarded_eq (handle : Handle) (call : EngineCall) (batch : Batch) (w : World) :
    Action.exec (do
      guardCall handle call
      write handle batch) w =
      match refusal? handle call batch w with
      | some err => (.error err, counted handle call w)
      | none => (.ok (), applied handle batch (counted handle call w)) := by
  rw [exec_bind, exec_guardCall, refusal?]
  cases blocks handle call w with
  | true => rfl
  | false =>
      simp only [Bool.false_eq_true, if_false, exec_write_eq, engines_counted, disk_counted]
      cases w.engines.get? handle.engine with
      | none => rfl
      | some e => cases hwrite : e.write batch w.disk <;> simp [hwrite]

theorem exec_put_eq (handle : Handle) (es : List Entry) (w : World) :
    (put handle es).exec w =
      match refusal? handle .put (.put es) w with
      | some err => (.error err, counted handle .put w)
      | none => (.ok (), applied handle (.put es) (counted handle .put w)) :=
  exec_guarded_eq handle .put (.put es) w

theorem exec_delete_eq (handle : Handle) (keys : List Bytes) (w : World) :
    (delete handle keys).exec w =
      match refusal? handle (.delete keys) (.delete keys) w with
      | some err => (.error err, counted handle (.delete keys) w)
      | none => (.ok (), applied handle (.delete keys) (counted handle (.delete keys) w)) :=
  exec_guarded_eq handle (.delete keys) (.delete keys) w

/-- That another call was counted does not matter for what is refused. -/
theorem refusal?_counted (handle : Handle) (call call' : EngineCall) (batch : Batch) (w : World) :
    refusal? handle call batch (counted handle call' w) = refusal? handle call batch w := by
  simp only [refusal?, blocks_counted, engines_counted, disk_counted]

/-- A batch that is not refused is what the table of the engine gets. -/
theorem content_applied (h : refusal? handle call batch w = none) :
    content handle (applied handle batch w) = (content handle w).apply batch := by
  unfold refusal? at h
  split at h
  · cases h
  · unfold applied content
    cases he : w.engines.get? handle.engine with
    | none => simp [he] at h
    | some e =>
        cases hwrite : e.write batch w.disk with
        | error err => simp [he, hwrite] at h
        | ok written =>
            obtain ⟨e', disk⟩ := written
            simp [hwrite, SortedMap.get?_insert, (Engine.table_of_write hwrite).2.2.2]

theorem faults?_applied (handle' : Handle) (handle : Handle) (batch : Batch) (w : World) :
    faults? handle' (applied handle batch w) = faults? handle' w := by
  unfold applied
  split
  · rfl
  · split
    · rfl
    · cases handle' <;> rfl

end Batches

/-! ## Scans -/

/-- Why a scan is refused: a switch, or an engine that is closed. -/
def scanRefusal? (handle : Handle) (w : World) : Option StorageError :=
  if blocks handle .scan w then some (Faults.error .scan)
  else
    match w.engines.get? handle.engine with
    | none => some .closed
    | some e => if e.isClosed then some .closed else none

/-- A scan is refused or answered from the table, and in both cases it is counted only. -/
theorem exec_scan_eq (handle : Handle) (front : Bytes) (w : World) :
    (scan handle front).exec w =
      (match scanRefusal? handle w with
        | some err => .error err
        | none => .ok ((content handle w).scan front), counted handle .scan w) := by
  unfold scan scanRefusal?
  rw [exec_bind, exec_guardCall]
  cases blocks handle .scan w with
  | true => rfl
  | false =>
      simp only [Bool.false_eq_true, if_false, exec_bind, engineOf, exec_get, engines_counted]
      cases he : w.engines.get? handle.engine with
      | none => rfl
      | some e =>
          rw [content_of_get? he]
          simp only [exec_pure, exec_answer, Engine.scan]
          cases e.isClosed <;> rfl

/-! ## Sync requests -/

/-- Why a request is refused: a switch, an engine that is closed, or what is asked for. -/
def syncRefusal? (handle : Handle) (devices : List String) (mode : SyncMode) (w : World) :
    Option StorageError :=
  if blocks handle .sync w then some (Faults.error .sync)
  else
    match w.engines.get? handle.engine with
    | none => some .closed
    | some e =>
      if e.isClosed then some .closed
      else
        match checkRequest devices mode with
        | .error err => some err
        | .ok () => none

section Requests

variable {handle : Handle} {devices : List String} {mode : SyncMode} {w : World}

theorem syncRefusal?_eq_none_iff :
    syncRefusal? handle devices mode w = none ↔
      blocks handle .sync w = false ∧
        (∃ e, w.engines.get? handle.engine = some e ∧ e.isClosed = false) ∧
          checkRequest devices mode = .ok () := by
  unfold syncRefusal?
  cases blocks handle .sync w with
  | true => simp
  | false =>
      cases he : w.engines.get? handle.engine with
      | none => simp
      | some e =>
          cases hclosed : e.isClosed with
          | true => simp [hclosed]
          | false => cases hcheck : checkRequest devices mode <;> simp [hclosed]

/-- A request is refused and counted only, or the table of the engine is pushed as it is then. -/
theorem exec_sync_cases (handle : Handle) (devices : List String) (mode : SyncMode) (w : World) :
    (∃ err, syncRefusal? handle devices mode w = some err ∧
        (sync handle devices mode).exec w = (.error err, counted handle .sync w)) ∨
      syncRefusal? handle devices mode w = none ∧
        ∃ e outcome w', w.engines.get? handle.engine = some e ∧
          (pushAll e.networked e.id e.options (e.table.scan []) devices ∅).run
            (counted handle .sync w) = (outcome, w') ∧
          (sync handle devices mode).exec w = (.ok outcome, w') := by
  unfold syncRefusal? sync
  rw [exec_bind, exec_guardCall]
  cases blocks handle .sync w with
  | true => exact .inl ⟨_, rfl, rfl⟩
  | false =>
      simp only [Bool.false_eq_true, if_false, exec_bind, engineOf, exec_get, engines_counted]
      cases he : w.engines.get? handle.engine with
      | none => exact .inl ⟨_, rfl, rfl⟩
      | some e =>
          cases hclosed : e.isClosed with
          | true => simp [hclosed]
          | false =>
              cases hcheck : checkRequest devices mode with
              | error err => simp [hclosed, exec_bind]
              | ok =>
                  rcases hpush : (pushAll e.networked e.id e.options (e.table.scan []) devices ∅).run
                    (counted handle .sync w) with ⟨outcome, w'⟩
                  simp [hclosed, exec_bind, hpush]

end Requests

end ObjectStore.World
