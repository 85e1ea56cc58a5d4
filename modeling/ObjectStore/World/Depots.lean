import ObjectStore.Depot.Access
import ObjectStore.World.Sync

/-!
# Depots in a world

The life of a depot: it borrows its engine from its manager when it is opened and gives it back when
it is closed or dropped. What a depot does with objects needs it to be ready.
-/

namespace ObjectStore.World

/-- A handle as a store of keys and values. -/
def keyValue (handle : Handle) : KeyValue World where
  put := put handle
  delete := delete handle
  scan := scan handle

/-! ## Life -/

/-- Opens a depot: its configuration goes to the manager, and the manager lends the engine. A depot
that is ready stays as it is, and one that cannot be opened too. -/
def start (d : Depot) : Action World DepotError Depot :=
  match d.phase with
  | .ready _ => return d
  | _ => do
    -- The manager keeps the base directory also if the opening fails.
    modify fun w => w.modifyManager d.manager fun m => { m with base := some d.config.base }
    let handle ← (lend d.manager d.id d.config.options).mapError .storage
    return { d with phase := .ready handle }

/-- Closes a depot: it gives its handle back, whether the manager takes it or not. -/
def stop (d : Depot) : StateM World Depot := do
  match d.phase with
  | .ready handle => discard (reclaim d.manager handle).outcome
  | _ => pure ()
  return { d with phase := .closed }

/-- Does something with the objects of a depot that is ready. -/
def withObjects {α : Type} (d : Depot)
    (act : KeyValue World → DataCodec → Action World DepotError α) : Action World DepotError α :=
  match d.phase with
  | .ready handle => act (keyValue handle) d.codec
  | _ => throw (.notReady d.state)

/-- Requests a push of everything that a depot keeps. -/
def syncDepot (d : Depot) (devices : List String) : Action World DepotError SyncOutcome :=
  match d.phase with
  | .ready handle => (sync handle devices .pushOnly).mapError .storage
  | _ => throw (.notReady d.state)

/-! ## Names -/

/-- Names a manager; what had the name before loses it. -/
def nameManager (w : World) (name : String) (manager : ManagerRef) : World :=
  { w with managerNames := w.managerNames.insert name manager }

/-- Takes a name off a manager. -/
def dropManager (w : World) (name : String) : World :=
  { w with managerNames := w.managerNames.erase name }

/-- Names a handle; what had the name before loses it. -/
def nameHandle (w : World) (name : String) (handle : Handle) : World :=
  { w with handleNames := w.handleNames.insert name handle }

/-- Takes a name off a handle. -/
def dropHandle (w : World) (name : String) : World :=
  { w with handleNames := w.handleNames.erase name }

/-- Changes a depot under its name. -/
def setDepot (w : World) (name : String) (d : Depot) : World :=
  { w with depots := w.depots.insert name d }

/-- What callers now have under the name of a depot's manager. -/
def managerNamedBy (w : World) (d : Depot) : Option (ManagerRef × Manager) := do
  let ref ← w.managerNames.get? d.managerName
  let m ← w.managers.get? ref
  return (ref, m)

/-- Closes a depot that has lost its name and removes the directory that is its own. -/
def discardDepot (d : Option Depot) (w : World) : World :=
  match d with
  | some d =>
    let w := ((stop d).run w).2
    match d.scratch with
    | some place => w.removeDirectory place
    | none => w
  | none => w

/-- Names a depot. What had the name before is closed once the new depot has it. -/
def nameDepot (w : World) (name : String) (d : Depot) : World :=
  discardDepot (w.depots.get? name) (w.setDepot name d)

/-- Drops a depot, which closes it. -/
def dropDepot (w : World) (name : String) : World :=
  discardDepot (w.depots.get? name) { w with depots := w.depots.erase name }

/-- Opens the depot of a name. -/
def startNamed (name : String) (d : Depot) : Action World DepotError Unit := do
  let d ← start d
  modify fun w => w.setDepot name d

/-- Closes the depot of a name. -/
def stopNamed (name : String) (d : Depot) : StateM World Unit := do
  let d ← stop d
  modify fun w => w.setDepot name d

/-! ## Ready-made depots -/

/-- The ready-made kinds of depots. -/
inductive ReadyMade where
  | memory
  | file
  | failing
  deriving DecidableEq, Repr

/-- A ready depot of one of the ready-made kinds, with a guarded manager of its own. A depot on disk
lies in the given scratch directory, which goes with the depot. -/
def addReadyMade (w : World) (managerName depotName : String) (kind : ReadyMade)
    (scratch : String) : World :=
  let config : Config := {}
  let (manager, w) := w.addManager { app := config.app, user := config.user, guard := some {} }
  let options := { config.options with memoryOnly := kind != .file }
  let base := if kind = .file then scratch else config.base
  let d : Depot :=
    { id := "drag"
      manager
      managerName
      scratch := if kind = .file then some (Path.names scratch) else none
      config := { config with base, options }
      codecFaults := if kind = .failing then some {} else none }
  let (started, w) := (start d).exec w
  (w.nameManager managerName manager).nameDepot depotName (started.toOption.getD d)

end ObjectStore.World
