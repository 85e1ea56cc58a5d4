import ObjectStore.Depot.Config
import ObjectStore.Depot.Error
import ObjectStore.Manager.Basic
import ObjectStore.Object.Codec

/-!
# Depots

A depot keeps objects in one named store, whose engine a manager lends it while it is ready:

```text
uninitialized --init--> ready --close--> closed --init--> ready
```

So a depot holds a handle exactly while it is ready, and that is how its phase is given.
-/

namespace ObjectStore

/-- The phase of a depot, with the handle that it holds while ready. -/
inductive Phase where
  | uninitialized
  | ready (handle : Handle)
  | closed
  deriving DecidableEq, Repr

/-- Keeps objects in one named store. -/
structure Depot where
  /-- The id of the store. -/
  id : String
  /-- The manager that lends the engine. -/
  manager : ManagerRef
  /-- The name that callers had for the manager. -/
  managerName : String
  /-- What the engine is opened with. -/
  config : Config := {}
  /-- The switches of the codec, if it has any. -/
  codecFaults : Option CodecFaults := none
  /-- The place of a directory that is the depot's own and goes with it. -/
  scratch : Option (List String) := none
  /-- Where the depot stands. -/
  phase : Phase := .uninitialized
  deriving DecidableEq, Repr

namespace Depot

/-- The stage of a depot's life. -/
def state (d : Depot) : DepotState :=
  match d.phase with
  | .uninitialized => .uninitialized
  | .ready _ => .ready
  | .closed => .closed

/-- The handle of a depot that is ready. -/
def handle? (d : Depot) : Option Handle :=
  match d.phase with
  | .ready handle => some handle
  | _ => none

/-- The codec of a depot. -/
def codec (d : Depot) : DataCodec :=
  match d.codecFaults with
  | none => .cbor
  | some faults => .failing faults

end Depot

end ObjectStore
