import ObjectStore.Action
import ObjectStore.World.Basic

/-!
# Engine calls

Puts, deletes, scans and the closing of an engine through a handle. A call through a wrapper is first
counted and checked against the switches of the manager that lent the wrapper out.
-/

namespace ObjectStore.World

/-- Counts a call through a wrapper, and fails it if it is switched off. -/
def guardCall (handle : Handle) (call : EngineCall) : Action World StorageError Unit :=
  match handle with
  | .direct _ => return ()
  | .wrapped _ manager _ => do
    let w ← get
    match w.managers.get? manager with
    | none => return ()
    | some m =>
      match m.guard with
      | none => return ()
      | some guard =>
        set <| w.modifyManager manager fun m =>
          { m with guard := some { guard with faults := guard.faults.count call } }
        if guard.faults.blocks call then throw (Faults.error call)

/-- The engine behind a handle; an engine that is not there counts as closed. -/
def engineOf (handle : Handle) : Action World StorageError Engine := do
  match (← get).engines.get? handle.engine with
  | some e => return e
  | none => throw .closed

/-- Applies a batch to the engine behind a handle. -/
def write (handle : Handle) (batch : Batch) : Action World StorageError Unit := do
  let e ← engineOf handle
  let w ← get
  match e.write batch w.disk with
  | .error err => throw err
  | .ok (e, disk) => set { w with engines := w.engines.insert handle.engine e, disk }

/-- Stores all entries or none. -/
def put (handle : Handle) (entries : List Entry) : Action World StorageError Unit := do
  guardCall handle .put
  write handle (.put entries)

/-- Removes all keys or none. -/
def delete (handle : Handle) (keys : List Bytes) : Action World StorageError Unit := do
  guardCall handle (.delete keys)
  write handle (.delete keys)

/-- The entries whose keys start with the given bytes. -/
def scan (handle : Handle) (front : Bytes) : Action World StorageError (List Entry) := do
  guardCall handle .scan
  let e ← engineOf handle
  Action.answer (e.scan front)

/-- Closes an engine. -/
def closeEngine (w : World) (engine : EngineRef) : World :=
  match w.engines.get? engine with
  | some e => { w with engines := w.engines.insert engine e.close }
  | none => w

end ObjectStore.World
