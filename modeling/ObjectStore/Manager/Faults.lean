import ObjectStore.Bytes
import ObjectStore.Engine.Error

/-!
# Faults

Switches that make engine calls fail, and counters of the calls. A call is counted first and then
checked against the switches, so failed calls are counted too.
-/

namespace ObjectStore

/-- A call to an engine, as far as faults tell calls apart. -/
inductive EngineCall where
  | put
  | delete (keys : List Bytes)
  | scan
  | sync
  deriving DecidableEq, Repr

/-- The name of a call in error texts. -/
def EngineCall.name : EngineCall → String
  | .put => "put"
  | .delete _ => "delete"
  | .scan => "scan"
  | .sync => "sync"

/-- Switches and counters. -/
structure Faults where
  /-- Puts fail. -/
  put : Bool := false
  /-- Deletes fail. -/
  delete : Bool := false
  /-- Scans fail. -/
  scan : Bool := false
  /-- Sync requests fail. -/
  sync : Bool := false
  /-- Deletes of a key that starts with this fail. -/
  deleteUnder : Option Bytes := none
  /-- Puts so far. -/
  putCalls : Nat := 0
  /-- Deletes so far. -/
  deleteCalls : Nat := 0
  /-- Scans so far. -/
  scanCalls : Nat := 0
  /-- Sync requests so far. -/
  syncCalls : Nat := 0
  deriving DecidableEq, Repr

namespace Faults

/-- Counts a call. -/
def count (f : Faults) : EngineCall → Faults
  | .put => { f with putCalls := f.putCalls + 1 }
  | .delete _ => { f with deleteCalls := f.deleteCalls + 1 }
  | .scan => { f with scanCalls := f.scanCalls + 1 }
  | .sync => { f with syncCalls := f.syncCalls + 1 }

/-- Whether the switches make a call fail. -/
def blocks (f : Faults) : EngineCall → Bool
  | .put => f.put
  | .delete keys =>
    f.delete ||
      match f.deleteUnder with
      | none => false
      | some front => keys.any fun k => Bytes.startsWith k front
  | .scan => f.scan
  | .sync => f.sync

/-- The error of a call that the switches make fail. -/
def error (call : EngineCall) : StorageError :=
  let name := call.name
  .injected s!"{name} failure"

/-- Clears all switches and keeps the counters. -/
def heal (f : Faults) : Faults :=
  { f with put := false, delete := false, scan := false, sync := false, deleteUnder := none }

end Faults

end ObjectStore
