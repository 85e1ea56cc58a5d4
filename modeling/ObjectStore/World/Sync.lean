import ObjectStore.World.Lending

/-!
# Sync

A push copies everything an engine holds, as it is when the request is made, into the stores of the
same id on other devices: each device's manager lends its engine, the entries are put there, and the
engine is given back. The request is refused as a whole, or answered with one status per device.

A request that is taken returns at once, and its push goes on in the background until it tells the statuses
to the caller. Here the push is one step with the request: it is taken to be over before the next call is
made, to this engine or to any other.
-/

namespace ObjectStore

/-- The direction of a sync request. -/
inductive SyncMode where
  | pushOnly
  | pullOnly
  | pushPull
  deriving DecidableEq, Repr

/-- The name of a direction. -/
def SyncMode.name : SyncMode → String
  | .pushOnly => "PushOnly"
  | .pullOnly => "PullOnly"
  | .pushPull => "PushPull"

/-- What became of a request on one device. -/
inductive SyncStatus where
  /-- The device has every entry. -/
  | done
  /-- The device cannot be reached. -/
  | offline
  /-- The device refused. -/
  | failed (reason : String)
  deriving DecidableEq, Repr

/-- One status per device. -/
abbrev SyncOutcome := SortedMap String SyncStatus

namespace World

/-- Passes requests that name a device and only push. -/
def checkRequest (devices : List String) (mode : SyncMode) : Except StorageError Unit :=
  if devices.isEmpty then .error (.invalidArgs "sync requires at least one device")
  else
    match mode with
    | .pushOnly => .ok ()
    | mode =>
      let name := mode.name
      .error (.notSupported s!"sync mode {name} is not supported, only push-only")

/-- Puts entries into a store of a manager. The store is given back also where the put fails, and the
first of the two failures is the answer. -/
def deliver (id : String) (options : Options) (entries : List Entry) (manager : ManagerRef) :
    Action World StorageError Unit := do
  let handle ← lend manager id options
  let written ← Action.always (put handle entries).outcome
  let released ← Action.always (reclaim manager handle).outcome
  Action.answer written
  Action.answer released

/-- Pushes entries to one device. -/
def pushTo (networked : Bool) (id : String) (options : Options) (entries : List Entry)
    (device : String) : StateM World SyncStatus := do
  let w ← get
  match if networked then w.resolve device else none with
  | none => return .offline
  | some manager =>
    match ← (deliver id options entries manager).outcome with
    | .ok () => return .done
    | .error err => return .failed err.message

/-- Pushes entries to devices in turn. -/
def pushAll (networked : Bool) (id : String) (options : Options) (entries : List Entry) :
    List String → SyncOutcome → StateM World SyncOutcome
  | [], outcome => return outcome
  | device :: devices, outcome => do
    let status ← pushTo networked id options entries device
    pushAll networked id options entries devices (outcome.insert device status)

/-- Requests a sync of the engine behind a handle, and waits for the end of the push. -/
def sync (handle : Handle) (devices : List String) (mode : SyncMode) :
    Action World StorageError SyncOutcome := do
  guardCall handle .sync
  -- The entries are those of this moment; deliveries to the engine itself do not add to them.
  let e ← engineOf handle
  if e.isClosed then throw .closed
  Action.answer (checkRequest devices mode)
  Action.always <| pushAll e.networked e.id e.options (e.table.scan []) devices ∅

end World

end ObjectStore
